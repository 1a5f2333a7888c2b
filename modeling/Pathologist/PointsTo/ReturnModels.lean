import Mathlib.Algebra.Order.Group.Multiset
import Mathlib.Tactic.Abel
import Pathologist.PointsTo.Growth

/-!
# What an expansion comes upon

The walk below goes over the functions as an expansion does and notes what is to be added, without
a graph. The expansion is the walk with its notes applied to the graph in order. The walk visits
the functions that are reached, each once, and notes their facts. A function reports nothing either
if it has nothing or if it was expanded before, so a name's model is noted just if no candidate has
anything to report along functions not expanded by then.
-/
open List
namespace Pathologist.PointsTo
variable {P : Program}

/-- Whether a return is a fact by itself. -/
def ReturnFlow.isFact (locations : P.Fn → Option LocId) : ReturnFlow P.Var P.Fn → Bool
  | .addrOfVar _ | .copy _ => true
  | .addrOfFn f => (locations f).isSome
  | .call _ => false

/-- A function contributes a fact, its own or that of a function whose result it returns, along
functions that are not in `skipped`. -/
inductive Contributes (locations : P.Fn → Option LocId) (skipped : List P.Fn) : P.Fn → Prop
  | fact {f flows flow} (hf : f ∉ skipped) (hflows : P.fnReturns f = some flows)
      (hflow : flow ∈ flows) (hfact : flow.isFact locations = true) :
      Contributes locations skipped f
  | call {f flows name g} (hf : f ∉ skipped) (hflows : P.fnReturns f = some flows)
      (hflow : .call name ∈ flows) (hg : g ∈ P.returnFlowCandidates f name)
      (hfact : Contributes locations skipped g) : Contributes locations skipped f

namespace Expansion

/-- How many functions are left to expand. -/
def unvisited (e : Expansion P) : ℕ := P.functions.countP fun f => !e.visited.contains f

lemma unvisited_le {e e' : Expansion P} (h : e.visited ⊆ e'.visited) : e'.unvisited ≤ e.unvisited :=
  countP_mono_left fun f _ hf => by
    simp only [Bool.not_eq_true', contains_eq_mem, decide_eq_false_iff_not] at hf ⊢
    exact fun hv => hf (h hv)

lemma unvisited_lt {e : Expansion P} {f : P.Fn} (hf : f ∉ e.visited) :
    ({ e with visited := f :: e.visited } : Expansion P).unvisited < e.unvisited := by
  obtain ⟨xs, ys, hs⟩ := append_of_mem (P.mem_functions f)
  have hle : ∀ zs : List P.Fn, (zs.countP fun g => !(f :: e.visited).contains g) ≤
      zs.countP fun g => !e.visited.contains g := fun zs =>
    countP_mono_left fun g _ hg => by
      simp only [Bool.not_eq_true', contains_eq_mem, decide_eq_false_iff_not, mem_cons,
        not_or] at hg ⊢
      exact hg.2
  have hxs := hle xs
  have hys := hle ys
  have hnew : (!(f :: e.visited).contains f) = false := by simp
  have hold : (!e.visited.contains f) = true := by simpa using hf
  unfold unvisited
  rw [hs]
  simp only [countP_append, countP_cons, hnew, hold, Bool.false_eq_true, if_false, if_true]
  omega

end Expansion

/-- What an expansion comes upon. -/
inductive ReturnEvent (P : Program)
  /-- A return that is not the result of a call. -/
  | fact (f : P.Fn) (flow : ReturnFlow P.Var P.Fn)
  /-- A return of the result of a name, with the functions expanded by then. -/
  | met (f : P.Fn) (name : String) (visited : List P.Fn)
  /-- The model of a name that was met is applied. -/
  | model (f : P.Fn) (name : String) (visited : List P.Fn) (model : String × List Effect)

structure Walk (P : Program) where
  visited : List P.Fn
  events : List (ReturnEvent P) := []

namespace Walk

def note (w : Walk P) (event : ReturnEvent P) : Walk P := { w with events := w.events ++ [event] }

def all {α : Type} (expand : α → Walk P → Option (Bool × Walk P)) (items : List α) (w : Walk P) :
    Option (Bool × Walk P) :=
  items.foldlM (fun acc item => (expand item acc.2).map fun r => (acc.1 || r.1, r.2)) (false, w)

def returnFlow (L : P.Fn → Option LocId) (expand : P.Fn → Walk P → Option (Bool × Walk P))
    (callee : P.Fn) :
    ReturnFlow P.Var P.Fn → Walk P → Option (Bool × Walk P)
  | .call name, w =>
    (all expand (P.returnFlowCandidates callee name) (w.note (.met callee name w.visited))).map
      fun r =>
      if r.1 then r
      else
        match P.returnModel name with
        | some model => (true, r.2.note (.model callee name w.visited model))
        | none => (false, r.2)
  | flow, w => some (flow.isFact L, w.note (.fact callee flow))

def returnFlows (L : P.Fn → Option LocId) : ℕ → P.Fn → Walk P → Option (Bool × Walk P)
  | 0, _, _ => none
  | fuel + 1, callee, w =>
    if w.visited.contains callee then some (false, w)
    else
      let w := { w with visited := callee :: w.visited }
      (P.fnReturns callee).elim (some (false, w)) fun flows =>
        all (returnFlow L (returnFlows L fuel) callee) flows w

end Walk

namespace ReturnEvent

def apply (dst : NodeId) (pag : Pag P) : ReturnEvent P → Pag P
  | .fact _ (.addrOfVar src) => (pag.ensureVarLoc src).2.addAddrOf dst (pag.ensureVarLoc src).1
  | .fact _ (.addrOfFn f) => (pag.fnLocations f).elim pag fun loc => pag.addAddrOf dst loc
  | .fact _ (.copy src) => (pag.varNodeId src).2.addCopy dst (pag.varNodeId src).1
  | .fact _ (.call _) | .met _ _ _ => pag
  | .model f name _ used =>
    pag.applyReturnModel dst used (firstParams P (P.returnFlowCandidates f name))

def modelUse : ReturnEvent P → Option (ModelUse P)
  | .model f name visited _ => some ⟨P.returnFlowCandidates f name, visited⟩
  | _ => none

lemma fnLocations_apply (dst : NodeId) (pag : Pag P) (event : ReturnEvent P) :
    (event.apply dst pag).fnLocations = pag.fnLocations := by
  cases event with
  | fact f flow =>
    cases flow with
    | addrOfVar src =>
      exact ((pag.extends_ensureVarLoc src).trans (Pag.extends_addAddrOf _ _ _)).fnLocations
    | addrOfFn g =>
      simp only [apply]
      cases pag.fnLocations g with
      | none => rfl
      | some loc => exact (Pag.extends_addAddrOf _ _ _).fnLocations
    | copy src => exact ((pag.extends_varNodeId src).trans (Pag.extends_addCopy _ _ _)).fnLocations
    | call name => rfl
  | met f name visited => rfl
  | model f name visited used => exact (Pag.Receives.applyReturnModel dst _ _ _).fnLocations

end ReturnEvent

/-- The expansion that a walk amounts to. -/
def Walk.expansion (dst : NodeId) (pag : Pag P) (w : Walk P) : Expansion P where
  visited := w.visited
  pag := w.events.foldl (ReturnEvent.apply dst) pag
  modelUses := w.events.filterMap ReturnEvent.modelUse

section Expansion
variable (dst : NodeId) (pag : Pag P)

lemma Walk.fnLocations_expansion (w : Walk P) :
    (w.expansion dst pag).pag.fnLocations = pag.fnLocations := by
  unfold expansion
  induction w.events generalizing pag with
  | nil => rfl
  | cons event events ih => rw [foldl_cons, ih, ReturnEvent.fnLocations_apply]

lemma Walk.expansion_note (w : Walk P) (event : ReturnEvent P) : (w.note event).expansion dst pag =
      { visited := w.visited
        pag := event.apply dst (w.expansion dst pag).pag
        modelUses := (w.expansion dst pag).modelUses ++ event.modelUse.toList } := by
  unfold expansion note
  cases he : event.modelUse <;> simp [he]

variable {w : Walk P} {r : Bool × Walk P}

lemma Walk.all_expansion {α : Type} {expand expand'} (h : ∀ item w r, expand item w = some r →
      expand' item (w.expansion dst pag) = (r.1, r.2.expansion dst pag)) {items : List α}
    (hall : all expand items w = some r) :
    Expansion.all expand' items (w.expansion dst pag) = (r.1, r.2.expansion dst pag) := by
  unfold all at hall
  unfold Expansion.all
  generalize false = applied at hall ⊢
  induction items generalizing w applied with
  | nil =>
    cases hall
    rfl
  | cons item items ih =>
    obtain ⟨next, hn, hr⟩ := Option.bind_eq_some_iff.mp hall
    obtain ⟨step, hs, rfl⟩ := Option.map_eq_some_iff.mp hn
    rw [foldl_cons, h item w step hs]
    exact ih _ hr

lemma Walk.returnFlow_expansion {expand} {expand'}
    (h : ∀ f w r, expand f w = some r → expand' f (w.expansion dst pag) =
      (r.1, r.2.expansion dst pag))
    {callee : P.Fn} {flow} (hf : returnFlow pag.fnLocations expand callee flow w = some r) :
    Expansion.returnFlow expand' dst callee flow (w.expansion dst pag) =
      (r.1, r.2.expansion dst pag) := by
  cases flow with
  | call name =>
    obtain ⟨inner, hinner, rfl⟩ := Option.map_eq_some_iff.mp hf
    have hall := all_expansion dst pag h hinner
    have hmet : (w.note (.met callee name w.visited)).expansion dst pag = w.expansion dst pag := by
      rw [expansion_note]
      simp only [ReturnEvent.modelUse, Option.toList_none, append_nil]
      rfl
    rw [hmet] at hall
    simp only [Expansion.returnFlow, hall]
    split
    · rfl
    · cases P.returnModel name with
      | none => rfl
      | some used => rw [expansion_note]; rfl
  | addrOfVar src | copy src =>
    cases hf
    rw [expansion_note]
    simp only [ReturnEvent.modelUse,
      Option.toList_none, append_nil]
    rfl
  | addrOfFn g =>
    cases hf
    rw [expansion_note]
    simp only [Expansion.returnFlow, ReturnFlow.isFact, ReturnEvent.apply, ReturnEvent.modelUse,
      Option.toList_none, append_nil, fnLocations_expansion]
    cases pag.fnLocations g <;> rfl

lemma Walk.returnFlows_expansion {fuel : ℕ} {callee : P.Fn}
    (h : returnFlows pag.fnLocations fuel callee w = some r) :
    (w.expansion dst pag).returnFlows fuel dst callee = (r.1, r.2.expansion dst pag) := by
  induction fuel generalizing callee w r with
  | zero => cases h
  | succ fuel ih =>
    unfold returnFlows at h
    unfold Expansion.returnFlows
    split at h
    · next hin =>
      cases h
      exact if_pos (contains_iff_mem.mp hin)
    next hin =>
    have hin' : callee ∉ (w.expansion dst pag).visited := mt contains_iff_mem.mpr hin
    rw [if_neg hin']
    cases hflows : P.fnReturns callee with
    | none =>
      rw [hflows] at h
      cases h
      rfl
    | some flows =>
      rw [hflows] at h
      exact all_expansion dst pag
        (fun flow w r hflow => returnFlow_expansion dst pag (fun f w r hf => ih hf) hflow) h

end Expansion

/-- `f` returns the result of a name that `g` is a candidate of. -/
def Returns (f g : P.Fn) : Prop :=
  ∃ flows name, P.fnReturns f = some flows ∧ .call name ∈ flows ∧ g ∈ P.returnFlowCandidates f name

def ReturnFlow.isCall : ReturnFlow P.Var P.Fn → Bool
  | .call _ => true
  | _ => false

/-- The returns of a function that are not the results of calls. -/
def directFacts (f : P.Fn) : List (P.Fn × ReturnFlow P.Var P.Fn) :=
  (((P.fnReturns f).getD []).filter fun flow => !flow.isCall).map fun flow => (f, flow)

def ReturnEvent.directFact : ReturnEvent P → Option (P.Fn × ReturnFlow P.Var P.Fn)
  | .fact f flow => some (f, flow)
  | _ => none

/-- A return that is reported whatever the expansion of its candidates reports. -/
def ReturnFlow.Reports (L : P.Fn → Option LocId) (flow : ReturnFlow P.Var P.Fn) : Prop :=
  flow.isFact L = true ∨ ∃ name, flow = .call name ∧ (P.returnModel name).isSome = true

/-- A function reports something, of its own or of a function whose result it returns, along
functions that are not in `skipped`. -/
inductive Yields (L : P.Fn → Option LocId) (skipped : List P.Fn) : P.Fn → Prop
  | own {f flows flow} (hf : f ∉ skipped) (hflows : P.fnReturns f = some flows)
    (hflow : flow ∈ flows)
      (hreports : flow.Reports L) : Yields L skipped f
  | call {f g} (hf : f ∉ skipped) (hreturns : Returns f g) (hg : Yields L skipped g) :
      Yields L skipped f

variable {L : P.Fn → Option LocId} {f : P.Fn}

lemma Yields.mono {V W} (hsub : V ⊆ W) (h : Yields L W f) : Yields L V f := by
  induction h with
  | own hf hflows hflow hr => exact .own (fun hv => hf (hsub hv)) hflows hflow hr
  | call hf hreturns _ ih => exact .call (fun hv => hf (hsub hv)) hreturns ih

/-- A name that is met is modelled just if none of its candidates had anything left to report. -/
structure Settled (L : P.Fn → Option LocId) (events : List (ReturnEvent P)) : Prop where
  model : ∀ {f name visited used}, .model f name visited used ∈ events →
    .met f name visited ∈ events ∧ P.returnModel name = some used ∧
      ∀ c ∈ P.returnFlowCandidates f name, ¬ Yields L visited c
  met : ∀ {f name visited used}, .met f name visited ∈ events → P.returnModel name = some used →
    (∀ c ∈ P.returnFlowCandidates f name, ¬ Yields L visited c) →
      .model f name visited used ∈ events

lemma Settled.append {events events'} (h : Settled L events) (h' : Settled L events') :
    Settled L (events ++ events') := by
  refine ⟨fun hm => ?_, fun hmet hu hn => ?_⟩
  · obtain hm | hm := mem_append.mp hm
    · exact ⟨mem_append_left _ (h.model hm).1, (h.model hm).2⟩
    · exact ⟨mem_append_right _ (h'.model hm).1, (h'.model hm).2⟩
  · obtain hmet | hmet := mem_append.mp hmet
    · exact mem_append_left _ (h.met hmet hu hn)
    · exact mem_append_right _ (h'.met hmet hu hn)

variable {name : String}

/-- A name is met, its candidates are expanded, and `extra` is its model if they were silent. -/
lemma Settled.call {events extra visited} (h : Settled L events)
    (hextra : ∀ event ∈ extra, ∃ used, event = .model f name visited used ∧
      P.returnModel name = some used ∧
      ∀ c ∈ P.returnFlowCandidates f name, ¬ Yields L visited c)
    (hm : ∀ used, P.returnModel name = some used →
      (∀ c ∈ P.returnFlowCandidates f name, ¬ Yields L visited c) →
      ReturnEvent.model f name visited used ∈ extra) :
    Settled L (.met f name visited :: (events ++ extra)) := by
  refine ⟨fun he => ?_, fun he hu hn => ?_⟩
  · obtain he | he := mem_append.mp ((mem_cons.mp he).resolve_left nofun)
    · exact ⟨mem_cons_of_mem _ (mem_append_left _ (h.model he).1), (h.model he).2⟩
    · obtain ⟨used, heq, hu⟩ := hextra _ he
      cases heq
      exact ⟨mem_cons_self, hu⟩
  obtain heq | he := mem_cons.mp he
  · cases heq
    exact mem_cons_of_mem _ (mem_append_right _ (hm _ hu hn))
  obtain he | he := mem_append.mp he
  · exact mem_cons_of_mem _ (mem_append_left _ (h.met he hu hn))
  · obtain ⟨used, heq, -⟩ := hextra _ he
    cases heq

/-- What a part of a walk does that is to expand `roots`, has the facts `own` of its own and reports
by itself if `reports`. It visits `new` and comes upon `added`. -/
structure Walked (L : P.Fn → Option LocId) (roots : List P.Fn)
    (own : List (P.Fn × ReturnFlow P.Var P.Fn))
    (reports : Prop) (w : Walk P) (r : Bool × Walk P) (new : List P.Fn)
    (added : List (ReturnEvent P)) :
    Prop where
  visited : r.2.visited = new ++ w.visited
  events : r.2.events = w.events ++ added
  nodup : new.Nodup
  fresh : ∀ f ∈ new, f ∉ w.visited
  facts : (added.filterMap ReturnEvent.directFact).Perm (own ++ new.flatMap directFacts)
  reached : ∀ f ∈ new, ∃ root ∈ roots, Relation.ReflTransGen Returns root f
  closed : ∀ f ∈ new, ∀ g, Returns f g → g ∈ r.2.visited
  expanded : ∀ root ∈ roots, root ∈ r.2.visited
  yields : r.1 = true → reports ∨ ∃ root ∈ roots, Yields L w.visited root
  silent : r.1 = false → ¬ reports ∧ ∀ f ∈ new, ∀ flows flow, P.fnReturns f = some flows →
    flow ∈ flows → ¬ flow.Reports L
  settled : Settled L added

namespace Walked
variable {L : P.Fn → Option LocId} {roots roots' : List P.Fn}
  {own own' : List (P.Fn × ReturnFlow P.Var P.Fn)}
  {reports reports' : Prop} {w w₁ w₂ : Walk P} {a b : Bool} {new new' : List P.Fn}
  {added added' : List (ReturnEvent P)}

lemma nil (L : P.Fn → Option LocId) (w : Walk P) (hno : ¬ reports) :
    Walked L [] [] reports w (false, w) [] [] :=
  ⟨rfl, (append_nil _).symm, .nil, nofun, .nil, nofun, nofun, nofun, nofun, fun _ => ⟨hno, nofun⟩,
    ⟨nofun, nofun⟩⟩

section
variable (h : Walked L roots own reports w (a, w₁) new added)
include h

lemma subset : w.visited ⊆ w₁.visited := by
  rw [show w₁.visited = new ++ w.visited from h.visited]
  exact subset_append_right _ _

lemma trans (h' : Walked L roots' own' reports' w₁ (b, w₂) new' added') :
    Walked L (roots ++ roots') (own ++ own') (reports ∨ reports') w (a || b, w₂) (new' ++ new)
      (added ++ added') := by
  have hvis : w₁.visited = new ++ w.visited := h.visited
  have hmem : ∀ f ∈ new, f ∈ w₁.visited := fun f hf => hvis ▸ mem_append_left _ hf
  refine ⟨?_, ?_, ?_, fun f hf => ?_, ?_, fun f hf => ?_, fun f hf g hg => ?_, fun root hro => ?_,
    fun hre => ?_, fun hs => ?_, h.settled.append h'.settled⟩
  · rw [h'.visited, hvis, append_assoc]
  · rw [h'.events, show w₁.events = _ from h.events, append_assoc]
  · refine nodup_append.mpr ⟨h'.nodup, h.nodup, fun f hf' g hg heq => ?_⟩
    exact h'.fresh f hf' (heq ▸ hmem g hg)
  · obtain hf | hf := mem_append.mp hf
    · exact fun hw => h'.fresh f hf (h.subset hw)
    · exact h.fresh f hf
  · rw [filterMap_append, flatMap_append]
    refine (h.facts.append h'.facts).trans (Multiset.coe_eq_coe.mp ?_)
    simp only [← Multiset.coe_add]
    abel
  · obtain hf | hf := mem_append.mp hf
    · obtain ⟨root, hro, hr⟩ := h'.reached f hf
      exact ⟨root, mem_append_right _ hro, hr⟩
    · obtain ⟨root, hro, hr⟩ := h.reached f hf
      exact ⟨root, mem_append_left _ hro, hr⟩
  · obtain hf | hf := mem_append.mp hf
    · exact h'.closed f hf g hg
    · exact h'.subset (h.closed f hf g hg)
  · obtain hro | hro := mem_append.mp hro
    · exact h'.subset (h.expanded root hro)
    · exact h'.expanded root hro
  · obtain ha | hb := (Bool.or_eq_true _ _).mp hre
    · obtain hyes | ⟨root, hro, hy⟩ := h.yields ha
      · exact .inl (.inl hyes)
      · exact .inr ⟨root, mem_append_left _ hro, hy⟩
    · obtain hyes | ⟨root, hro, hy⟩ := h'.yields hb
      · exact .inl (.inr hyes)
      · exact .inr ⟨root, mem_append_right _ hro, hy.mono h.subset⟩
  obtain ⟨ha, hb⟩ := Bool.or_eq_false_iff.mp hs
  obtain ⟨hno, hnew⟩ := h.silent ha
  obtain ⟨hno', hnew'⟩ := h'.silent hb
  refine ⟨not_or.mpr ⟨hno, hno'⟩, fun f hf => ?_⟩
  obtain hf | hf := mem_append.mp hf
  · exact hnew' f hf
  · exact hnew f hf

end

/-- Nothing is left that a silent walk could have reported. -/
lemma not_yields (h : Walked L roots own reports w (false, w₁) new added) (hf : f ∈ w₁.visited) :
    ¬ Yields L w.visited f := by
  have hnew : ∀ {f}, f ∈ w₁.visited → f ∉ w.visited → f ∈ new := fun hf hnot => by
    rw [show w₁.visited = new ++ w.visited from h.visited] at hf
    exact (mem_append.mp hf).resolve_right hnot
  intro hy
  induction hy with
  | own hnot hflows hflow hr => exact (h.silent rfl).2 _ (hnew hf hnot) _ _ hflows hflow hr
  | call hnot hreturns _ ih => exact ih (h.closed _ (hnew hf hnot) _ hreturns)

end Walked

section Walks
variable {L : P.Fn → Option LocId}
variable {w : Walk P} {r : Bool × Walk P} {new : List P.Fn} {added : List (ReturnEvent P)}
variable {expand : P.Fn → Walk P → Option (Bool × Walk P)}

section
variable {α : Type} {expand : α → Walk P → Option (Bool × Walk P)} {items : List α}
  {roots : α → List P.Fn} {own : α → List (P.Fn × ReturnFlow P.Var P.Fn)} {reports : α → Prop}

lemma walked_foldlM (h : ∀ item ∈ items, ∀ w r, expand item w = some r →
      ∃ new added, Walked L (roots item) (own item) (reports item) w r new added)
    {acc R} {O} {Q : Prop} (hacc : Walked L R O Q w acc new added)
    (hall : items.foldlM (fun acc item => (expand item acc.2).map fun r => (acc.1 || r.1, r.2))
      acc =
      some r) :
    ∃ new' added', Walked L (R ++ items.flatMap roots) (O ++ items.flatMap own)
      (Q ∨ ∃ item ∈ items, reports item) w r new' added' := by
  induction items generalizing acc R O Q new added with
  | nil =>
    cases hall
    refine ⟨new, added, ?_⟩
    simpa using hacc
  | cons item items ih =>
    obtain ⟨next, hn, hr⟩ := Option.bind_eq_some_iff.mp hall
    obtain ⟨step, hs, rfl⟩ := Option.map_eq_some_iff.mp hn
    obtain ⟨new', added', hitem⟩ := h item mem_cons_self acc.2 step hs
    have hrun := ih (fun item hitem => h item (mem_cons_of_mem _ hitem)) (hacc.trans hitem) hr
    simpa [or_assoc] using hrun

lemma walked_all (h : ∀ item ∈ items, ∀ w r, expand item w = some r →
      ∃ new added, Walked L (roots item) (own item) (reports item) w r new added)
    (hall : Walk.all expand items w = some r) :
    ∃ new added, Walked L (items.flatMap roots) (items.flatMap own) (∃ item ∈ items, reports item)
      w r
      new added := by
  have hrun := walked_foldlM h (Walked.nil L w not_false) hall
  simpa using hrun

end

variable {callee : P.Fn}

/-- What is made of the candidates of a name that was met, with `extra` for its model. -/
lemma Walked.call {w₁ w₂ : Walk P} {reported applied : Bool} {Q Q' : Prop} {extra}
    (h : Walked L (P.returnFlowCandidates callee name) [] Q (w.note (.met callee name w.visited))
      (reported, w₁) new added) (hv : w₂.visited = w₁.visited) (he : w₂.events = w₁.events ++ extra)
    (hfacts : extra.filterMap ReturnEvent.directFact = [])
    (hy : applied = true → Q' ∨ ∃ c ∈ P.returnFlowCandidates callee name, Yields L w.visited c)
    (hsilent : applied = false → ¬ Q' ∧ reported = false)
    (hs : Settled L (.met callee name w.visited :: (added ++ extra))) :
    Walked L (P.returnFlowCandidates callee name) [] Q' w (applied, w₂) new
      (.met callee name w.visited :: (added ++ extra)) := by
  refine ⟨hv.trans h.visited, ?_, h.nodup, h.fresh, ?_, h.reached, fun f hf g hg => ?_,
    fun c hc => ?_, hy, fun hfalse => ?_, hs⟩
  · rw [he, show w₁.events = _ from h.events, Walk.note, append_assoc, append_assoc]
    rfl
  · rw [filterMap_cons_none rfl, filterMap_append, hfacts, append_nil]
    exact h.facts
  · exact hv ▸ h.closed f hf g hg
  · exact hv ▸ h.expanded c hc
  · obtain ⟨hno, rfl⟩ := hsilent hfalse
    exact ⟨hno, (h.silent rfl).2⟩

/-- A name that is met: its candidates are expanded, and its model stands in if they are silent. -/
lemma walked_call
    (h : ∀ f w r, expand f w = some r → ∃ new added, Walked L [f] [] False w r new added)
    (hflow : Walk.returnFlow L expand callee (.call name) w = some r) :
    ∃ new added, Walked L (P.returnFlowCandidates callee name) []
      (ReturnFlow.Reports L (.call name : ReturnFlow P.Var P.Fn)) w r new added := by
  obtain ⟨⟨reported, w₁⟩, hinner, rfl⟩ := Option.map_eq_some_iff.mp hflow
  obtain ⟨new, added, hw⟩ := walked_all (fun f _ => h f) hinner
  rw [flatMap_singleton', flatMap_eq_nil_iff.mpr fun _ _ => rfl] at hw
  refine ⟨new, ?_⟩
  cases reported with
  | true =>
    have hyields : ∃ c ∈ P.returnFlowCandidates callee name, Yields L w.visited c :=
      (hw.yields rfl).resolve_left fun ⟨_, _, hf⟩ => hf
    refine ⟨_, hw.call rfl (append_nil _).symm rfl (fun _ => .inr hyields) ?_ ?_⟩
    · exact nofun
    · obtain ⟨c, hc, hcyields⟩ := hyields
      exact hw.settled.call nofun fun _ _ hnone => absurd hcyields (hnone c hc)
  | false =>
    have hnone : ∀ c ∈ P.returnFlowCandidates callee name, ¬ Yields L w.visited c :=
      fun c hc => hw.not_yields (hw.expanded c hc)
    cases hm : P.returnModel name with
    | none =>
      refine ⟨_, hw.call rfl (append_nil _).symm rfl nofun (fun _ => ⟨?_, rfl⟩) ?_⟩
      · rintro (hfact | ⟨_, ⟨⟩, hs⟩)
        · cases hfact
        · rw [hm] at hs
          cases hs
      · refine hw.settled.call nofun fun used hu _ => ?_
        rw [hm] at hu
        cases hu
    | some used =>
      refine ⟨_, hw.call rfl rfl rfl (fun _ => .inl (.inr ⟨name, rfl, ?_⟩)) nofun ?_⟩
      · rw [hm]
        rfl
      refine hw.settled.call (fun event he => ?_) fun used' hu' _ => ?_
      · exact ⟨used, mem_singleton.mp he, hm, hnone⟩
      · cases hm.symm.trans hu'
        exact mem_singleton_self _

/-- The functions that a return leads to, and the fact that it is. -/
def ReturnFlow.roots (callee : P.Fn) : ReturnFlow P.Var P.Fn → List P.Fn
  | .call name => P.returnFlowCandidates callee name
  | _ => []

def ReturnFlow.own (callee : P.Fn) (flow : ReturnFlow P.Var P.Fn) :
    List (P.Fn × ReturnFlow P.Var P.Fn) :=
  if flow.isCall then [] else [(callee, flow)]

lemma walked_fact (callee : P.Fn) {flow} (hc : flow.isCall = false) (w : Walk P) :
    Walked L [] [(callee, flow)] (flow.Reports L) w (flow.isFact L, w.note (.fact callee flow)) []
      [.fact callee flow] := by
  refine ⟨rfl, rfl, .nil, nofun, .refl _, nofun, nofun, nofun, fun hf => .inl (.inl hf),
    fun hf => ⟨?_, nofun⟩, ⟨fun hm => ?_, fun hmet => ?_⟩⟩
  · rintro (hf' | ⟨name, rfl, -⟩)
    · exact absurd (hf.symm.trans hf') Bool.false_ne_true
    · cases hc
  · cases mem_singleton.mp hm
  · cases mem_singleton.mp hmet

lemma walked_returnFlow
    (h : ∀ f w r, expand f w = some r → ∃ new added, Walked L [f] [] False w r new added)
    (flow : ReturnFlow P.Var P.Fn) (hf : Walk.returnFlow L expand callee flow w = some r) :
    ∃ new added, Walked L (flow.roots callee) (flow.own callee) (flow.Reports L) w r new added := by
  cases flow with
  | call name => exact walked_call h hf
  | addrOfVar src | addrOfFn g | copy src =>
    cases hf
    exact ⟨[], _, walked_fact callee rfl w⟩

variable {flows : List (ReturnFlow P.Var P.Fn)}

section
variable (h : (P.fnReturns f).getD [] = flows)
include h

lemma fnReturns_of_mem {flow} (hflow : flow ∈ flows) : P.fnReturns f = some flows := by
  cases hf : P.fnReturns f with
  | none =>
    rw [← h, hf] at hflow
    cases hflow
  | some flows' => rw [← h, hf, Option.getD_some]

lemma directFacts_eq : directFacts f = flows.flatMap (ReturnFlow.own f) := by
  rw [directFacts, h]
  clear h
  induction flows with
  | nil => rfl
  | cons flow flows ih =>
    rw [flatMap_cons, ← ih]
    cases hc : flow.isCall <;> simp [ReturnFlow.own, hc]

lemma returns_iff {g : P.Fn} : Returns f g ↔ g ∈ flows.flatMap (ReturnFlow.roots f) := by
  rw [mem_flatMap]
  constructor
  · rintro ⟨flows', name, hf', hc, hg⟩
    rw [hf'] at h
    exact ⟨.call name, h ▸ hc, hg⟩
  rintro ⟨flow, hflow, hg⟩
  cases flow with
  | call name => exact ⟨flows, name, fnReturns_of_mem h hflow, hflow, hg⟩
  | addrOfVar src | addrOfFn k | copy src => cases hg

end

/-- A function that is expanded for the first time has what its returns have. -/
lemma Walked.function (hnot : callee ∉ w.visited) (hflows : (P.fnReturns callee).getD [] = flows)
    (h : Walked L (flows.flatMap (ReturnFlow.roots callee)) (flows.flatMap (ReturnFlow.own callee))
      (∃ flow ∈ flows, flow.Reports L) { w with visited := callee :: w.visited } r new added) :
    Walked L [callee] [] False w r (new ++ [callee]) added := by
  have hcallee : callee ∈ r.2.visited := h.visited ▸ mem_append_right _ mem_cons_self
  have hfresh : ∀ f ∈ new, f ≠ callee ∧ f ∉ w.visited := fun f hf =>
    not_or.mp fun hor => h.fresh f hf (mem_cons.mpr hor)
  refine ⟨?_, h.events, ?_, fun f hf => ?_, ?_, fun f hf => ⟨callee, mem_singleton_self _, ?_⟩,
    fun f hf g hg => ?_, fun root hroot => ?_, fun hreport => ?_, fun hs => ⟨id, ?_⟩, h.settled⟩
  · rw [h.visited, append_assoc]
    rfl
  · refine nodup_append.mpr ⟨h.nodup, nodup_singleton _, fun f hf g hg heq => ?_⟩
    exact (hfresh f hf).1 (heq.trans (mem_singleton.mp hg))
  · obtain hf | hf := mem_append.mp hf
    · exact (hfresh f hf).2
    · rwa [mem_singleton.mp hf]
  · rw [flatMap_append, flatMap_singleton, directFacts_eq hflows]
    exact h.facts.trans perm_append_comm
  · obtain hf | hf := mem_append.mp hf
    · obtain ⟨root, hroot, hreach⟩ := h.reached f hf
      exact .head ((returns_iff hflows).mpr hroot) hreach
    · rw [mem_singleton.mp hf]
  · obtain hf | hf := mem_append.mp hf
    · exact h.closed f hf g hg
    · rw [mem_singleton.mp hf] at hg
      exact h.expanded g ((returns_iff hflows).mp hg)
  · rw [mem_singleton.mp hroot]
    exact hcallee
  · refine .inr ⟨callee, mem_singleton_self _, ?_⟩
    obtain ⟨flow, hflow, hr⟩ | ⟨root, hroot, hy⟩ := h.yields hreport
    · exact .own hnot (fnReturns_of_mem hflows hflow) hflow hr
    · exact .call hnot ((returns_iff hflows).mpr hroot) (hy.mono (subset_cons_self _ _))
  obtain ⟨hno, hnew⟩ := h.silent hs
  intro f hf flows' flow hfl' hflow hr
  obtain hf | hf := mem_append.mp hf
  · exact hnew f hf flows' flow hfl' hflow hr
  · rw [← mem_singleton.mp hf, hfl'] at hflows
    exact hno ⟨flow, hflows ▸ hflow, hr⟩

lemma walked_returnFlows {fuel : ℕ} (h : Walk.returnFlows L fuel callee w = some r) :
    ∃ new added, Walked L [callee] [] False w r new added := by
  induction fuel generalizing callee w r with
  | zero => cases h
  | succ fuel ih =>
    unfold Walk.returnFlows at h
    split at h
    · next hin =>
      -- The function was expanded before.
      cases h
      refine ⟨[], [], { Walked.nil L w not_false with
        reached := nofun, expanded := fun root hr => ?_, yields := nofun }⟩
      rw [mem_singleton.mp hr]
      exact contains_iff_mem.mp hin
    next hnot =>
    replace hnot := mt contains_iff_mem.mpr hnot
    cases hf : P.fnReturns callee with
    | none =>
      rw [hf] at h
      cases h
      have hempty : (P.fnReturns callee).getD [] = [] := by rw [hf, Option.getD_none]
      exact ⟨_, _, Walked.function hnot hempty (.nil L _ (by simp))⟩
    | some flows =>
      rw [hf] at h
      obtain ⟨new, added, hw⟩ :=
        walked_all (fun flow _ w r => walked_returnFlow (fun f w r => ih) flow) h
      exact ⟨_, _, hw.function hnot (by rw [hf, Option.getD_some])⟩

end Walks

end Pathologist.PointsTo
