import Pathologist.PointsTo.Fixpoint
import Pathologist.PointsTo.ReturnModels

/-!
# What an expansion adds to its destination

The walk comes to an end: it runs out of fuel only with no more than there are functions. So an
expansion is the walk applied to the graph, and adds the facts of the functions that are reached.
Whether the models that it adds are those of the names without a real return is decided at the
names that it meets.
-/
open List
namespace Pathologist.PointsTo
variable {P : Program} {L : P.Fn → Option LocId}

section Ends
variable (dst : NodeId) (pag : Pag P)

lemma exists_all {α : Type} {expand} {items : List α} {w : Walk P}
    (hg : ∀ item w r, expand item w = some r → w.visited ⊆ r.2.visited)
    (h : ∀ item ∈ items, ∀ w', w.visited ⊆ w'.visited → ∃ r, expand item w' = some r) :
    ∃ r, Walk.all expand items w = some r := by
  unfold Walk.all
  generalize false = applied
  induction items generalizing w applied with
  | nil => exact ⟨_, rfl⟩
  | cons item items ih =>
    obtain ⟨step, hs⟩ := h item mem_cons_self w (Subset.refl _)
    rw [foldlM_cons]
    simp only [hs, Option.map_some, Option.bind_eq_bind]
    have hsub := hg item w step hs
    refine ih (fun item hitem w' hw' => ?_) _
    exact h item (mem_cons_of_mem _ hitem) w' (Subset.trans hsub hw')

lemma Walk.exists_returnFlows {fuel : ℕ} (callee : P.Fn) {w : Walk P}
    (h : (w.expansion dst pag).unvisited < fuel) :
    ∃ r, returnFlows pag.fnLocations fuel callee w = some r := by
  induction fuel generalizing callee w with
  | zero => exact absurd h (Nat.not_lt_zero _)
  | succ fuel ih =>
    unfold returnFlows
    split
    · exact ⟨_, rfl⟩
    next hnot =>
    have hlt :
        (Walk.expansion dst pag { w with visited := callee :: w.visited }).unvisited < fuel := by
      have hless := Expansion.unvisited_lt (e := w.expansion dst pag) (mt contains_iff_mem.mpr hnot)
      exact Nat.lt_of_lt_of_le hless (Nat.le_of_lt_succ h)
    cases P.fnReturns callee with
    | none => exact ⟨_, rfl⟩
    | some flows =>
      refine exists_all (fun flow w r hflow => ?_) fun flow _ w' hw' => ?_
      · obtain ⟨new, added, hwalked⟩ :=
          walked_returnFlow (fun f w r => walked_returnFlows) flow hflow
        exact hwalked.subset
      have hless : (w'.expansion dst pag).unvisited < fuel :=
        Nat.lt_of_le_of_lt (Expansion.unvisited_le hw') hlt
      cases flow with
      | addrOfVar src | addrOfFn g | copy src => exact ⟨_, rfl⟩
      | call name =>
        have hcandidates : ∃ r, all (returnFlows pag.fnLocations fuel)
            (P.returnFlowCandidates callee name) (w'.note (.met callee name w'.visited)) =
              some r := by
          refine exists_all (fun f w r hf => ?_) fun f _ w'' hw'' => ?_
          · obtain ⟨new, added, hwalked⟩ := walked_returnFlows hf
            exact hwalked.subset
          · exact ih f (Nat.lt_of_le_of_lt (Expansion.unvisited_le hw'') hless)
        obtain ⟨r, hr⟩ := hcandidates
        exact ⟨_, Option.map_eq_some_iff.mpr ⟨r, hr, rfl⟩⟩

end Ends

variable {r : Bool × Walk P}

lemma Walk.all_mono {α : Type} {expand expand'}
    (h : ∀ item w r, expand item w = some r → expand' item w = some r) {items : List α} {w : Walk P}
    (hall : all expand items w = some r) : all expand' items w = some r := by
  unfold all at hall ⊢
  generalize (false, w) = acc at hall ⊢
  induction items generalizing acc with
  | nil => exact hall
  | cons item items ih =>
    rw [foldlM_cons] at hall ⊢
    obtain ⟨next, hn, hr⟩ := Option.bind_eq_some_iff.mp hall
    obtain ⟨step, hs, rfl⟩ := Option.map_eq_some_iff.mp hn
    rw [h item _ step hs]
    exact ih _ hr

lemma Walk.returnFlows_mono {fuel fuel' : ℕ} (hle : fuel ≤ fuel') {callee : P.Fn} {w : Walk P}
    (h : returnFlows L fuel callee w = some r) : returnFlows L fuel' callee w = some r := by
  induction fuel generalizing fuel' callee w r with
  | zero => cases h
  | succ fuel ih =>
    obtain ⟨fuel', rfl⟩ := Nat.exists_eq_add_of_le' hle
    have hle' : fuel ≤ fuel' + fuel := Nat.le_add_left _ _
    unfold returnFlows at h
    rw [← Nat.add_assoc, returnFlows]
    split at h
    · next hin => rwa [if_pos hin]
    next hnot =>
    rw [if_neg hnot]
    cases hf : P.fnReturns callee with
    | none => rwa [hf] at h
    | some flows =>
      rw [hf] at h
      refine all_mono (fun flow w r hflow => ?_) h
      cases flow with
      | addrOfVar src | addrOfFn g | copy src => exact hflow
      | call name =>
        obtain ⟨inner, hinner, rfl⟩ := Option.map_eq_some_iff.mp hflow
        exact Option.map_eq_some_iff.mpr ⟨inner, all_mono (fun f w r => ih hle') hinner, rfl⟩

lemma Contributes.yields {skipped} {f : P.Fn} (h : Contributes L skipped f) :
    Yields L skipped f := by
  induction h with
  | fact hf hflows hflow hfact => exact .own hf hflows hflow (.inl hfact)
  | call hf hflows hflow hg _ ih => exact .call hf ⟨_, _, hflows, hflow, hg⟩ ih

/-- The walk over some callees, one after another. -/
def Walk.callees (L : P.Fn → Option LocId) (fuel : ℕ) (callees : List P.Fn) :
    Option (Bool × Walk P) := all (returnFlows L fuel) callees { visited := [] }

lemma Walk.callees_singleton (fuel : ℕ) (callee : P.Fn) :
    callees L fuel [callee] = returnFlows L fuel callee { visited := [] } := by
  cases h : returnFlows L fuel callee { visited := [] } <;> simp [callees, all, h]

/-- A name is met in the expansion of `callees`, when the functions `visited` have been expanded. -/
def Meets (L : P.Fn → Option LocId) (callees : List P.Fn) (f : P.Fn) (name : String)
    (visited : List P.Fn) : Prop :=
  ∃ fuel r, Walk.callees L fuel callees = some r ∧ .met f name visited ∈ r.2.events

/-- The walk over `callees`, to its end. -/
structure Walks (L : P.Fn → Option LocId) (callees : List P.Fn) (reported : Bool) (w : Walk P) :
    Prop where
  ends : ∀ fuel, P.functions.length < fuel → Walk.callees L fuel callees = some (reported, w)
  walked : Walked L callees [] False { visited := [] } (reported, w) w.visited w.events

lemma exists_walks (dst : NodeId) (callees : List P.Fn) (pag : Pag P) :
    ∃ reported w, Walks pag.fnLocations callees reported w := by
  have hfuel (w : Walk P) : (w.expansion dst pag).unvisited < P.functions.length + 1 :=
    Nat.lt_succ_of_le countP_le_length
  have hgrows (f : P.Fn) (w r) (h : Walk.returnFlows pag.fnLocations (P.functions.length + 1) f w =
      some r) : w.visited ⊆ r.2.visited := by
    obtain ⟨new, added, hwalked⟩ := walked_returnFlows h
    exact hwalked.subset
  obtain ⟨⟨reported, w⟩, hwalk⟩ :
      ∃ r, Walk.callees pag.fnLocations (P.functions.length + 1) callees =
      some r := exists_all hgrows fun f _ w _ => Walk.exists_returnFlows dst pag f (hfuel w)
  obtain ⟨new, added, hwalked⟩ := walked_all (fun f _ w r h => walked_returnFlows h) hwalk
  have hvisited : w.visited = new := hwalked.visited.trans (append_nil _)
  have hevents : w.events = added := hwalked.events
  refine ⟨reported, w, fun fuel hlt => ?_, ?_⟩
  · exact Walk.all_mono (fun f w r => Walk.returnFlows_mono (Nat.succ_le_of_lt hlt)) hwalk
  · rw [flatMap_singleton', flatMap_eq_nil_iff.mpr fun _ _ => rfl] at hwalked
    simpa [hvisited, hevents] using hwalked

namespace Walks
variable {callees : List P.Fn} {reported : Bool} {w : Walk P}

section
variable (h : Walks L callees reported w)
include h

lemma meets_iff {f : P.Fn} {name : String} {visited : List P.Fn} :
    Meets L callees f name visited ↔ .met f name visited ∈ w.events := by
  constructor
  · rintro ⟨fuel, r, hr, hmet⟩
    have hmore := Walk.all_mono (fun f w r =>
      Walk.returnFlows_mono (Nat.le_max_left fuel (P.functions.length + 1))) hr
    cases hmore.symm.trans (h.ends (max fuel (P.functions.length + 1)) (by omega))
    exact hmet
  · exact fun hmet => ⟨_, _, h.ends _ (Nat.lt_succ_self _), hmet⟩

/-- The model of a name that is met is added just if no candidate has anything left to report. -/
lemma model_iff {f : P.Fn} {name : String} {visited : List P.Fn} {used : String × List Effect}
    (hused : P.returnModel name = some used) (hmet : Meets L callees f name visited) :
    .model f name visited used ∈ w.events ↔
      ¬ ∃ c ∈ P.returnFlowCandidates f name, Yields L visited c := by
  constructor
  · rintro hmodel ⟨c, hc, hyields⟩
    exact (h.walked.settled.model hmodel).2.2 c hc hyields
  · exact fun hnone => h.walked.settled.met (h.meets_iff.mp hmet) hused
      fun c hc hyields => hnone ⟨c, hc, hyields⟩

lemma mem_visited_iff (f : P.Fn) :
    f ∈ w.visited ↔ ∃ callee ∈ callees, Relation.ReflTransGen Returns callee f := by
  constructor
  · exact h.walked.reached f
  rintro ⟨callee, hcallee, hreached⟩
  induction hreached with
  | refl => exact h.walked.expanded callee hcallee
  | tail _ hstep ih => exact h.walked.closed _ ih _ hstep

end

lemma expansion {pag : Pag P} (h : Walks pag.fnLocations callees reported w) (dst : NodeId) :
    Expansion.all (expandReturnFlows dst) callees { visited := [], pag } =
      (reported, w.expansion dst pag) := by
  have hwalk := h.ends _ (Nat.lt_succ_self _)
  unfold Walk.callees at hwalk
  refine Walk.all_expansion dst pag ?_ hwalk
  exact fun f w r hf => Walk.returnFlows_expansion dst pag hf

end Walks

/-- No candidate of a name whose model is applied contributes a fact. -/
def ForWantOfReturns (L : P.Fn → Option LocId) (uses : List (ModelUse P)) : Prop :=
  ∀ use ∈ uses, ∀ c ∈ use.candidates, ¬ Contributes L [] c

/-- At each name that is met and has a model, and of whose candidates one contributes a fact, a
candidate has something left to report. -/
def FactsReported (L : P.Fn → Option LocId) (callees : List P.Fn) : Prop :=
  ∀ f name visited, Meets L callees f name visited → (P.returnModel name).isSome = true →
    (∃ c ∈ P.returnFlowCandidates f name, Contributes L [] c) →
      ∃ c ∈ P.returnFlowCandidates f name, Yields L visited c

lemma Walks.forWantOfReturns_iff {callees : List P.Fn} {reported : Bool} {w : Walk P}
    (h : Walks L callees reported w) :
    ForWantOfReturns L (w.events.filterMap ReturnEvent.modelUse) ↔ FactsReported L callees := by
  constructor
  · rintro hwant f name visited hmet hsome ⟨c, hc, hfact⟩
    obtain ⟨used, hused⟩ := Option.isSome_iff_exists.mp hsome
    by_contra hnone
    have hmodel := (h.model_iff hused hmet).mpr hnone
    exact hwant _ (mem_filterMap.mpr ⟨_, hmodel, rfl⟩) c hc hfact
  · intro hreported use huse c hc hfact
    obtain ⟨event, hevent, heq⟩ := mem_filterMap.mp huse
    cases event with
    | fact f flow | met f name visited => cases heq
    | model f name visited used =>
      cases heq
      obtain ⟨hmet, hused, -⟩ := h.walked.settled.model hevent
      have hmeets := h.meets_iff.mpr hmet
      refine (h.model_iff hused hmeets).mp hevent ?_
      exact hreported f name visited hmeets (by rw [hused]; rfl) ⟨c, hc, hfact⟩

/-- In the expansion of a call's candidates, and in that of one callee, models stand in for want of
a real return just if no real return is taken for none at the names that are met. -/
theorem model_use_iff (dst : NodeId) (candidates : List P.Fn)
    (model : Option (String × List Effect))
    (params : Option (List P.Var)) (callee : P.Fn) (pag : Pag P) :
    (ForWantOfReturns pag.fnLocations (pag.expandCandidates dst candidates model params).modelUses ↔
      FactsReported pag.fnLocations candidates) ∧
    (ForWantOfReturns pag.fnLocations
        (expandReturnFlows dst callee { visited := [], pag }).2.modelUses ↔
      FactsReported pag.fnLocations [callee]) := by
  constructor
  · obtain ⟨reported, w, hwalks⟩ := exists_walks dst candidates pag
    rw [← hwalks.forWantOfReturns_iff]
    simp only [Pag.expandCandidates, hwalks.expansion dst]
    cases reported with
    | true => rfl
    | false =>
      -- the model of the call itself: its candidates had nothing to report from the start
      have hcall : ForWantOfReturns pag.fnLocations [⟨candidates, []⟩] := by
        rintro use huse c hc hfact
        rw [mem_singleton.mp huse] at hc
        exact hwalks.walked.not_yields (hwalks.walked.expanded c hc) hfact.yields
      cases model with
      | none => rfl
      | some used =>
        simp only [Bool.false_eq_true, if_false, ForWantOfReturns, forall_mem_append] at hcall ⊢
        exact and_iff_left hcall
  · obtain ⟨reported, w, hwalks⟩ := exists_walks dst [callee] pag
    rw [← hwalks.forWantOfReturns_iff]
    have hexpansion :
        (expandReturnFlows dst callee { visited := [], pag }).2 = w.expansion dst pag :=
      congrArg Prod.snd (hwalks.expansion dst)
    rw [hexpansion]
    rfl

/-- `f` returns `g()` in two places, and `g`, which has a model, returns a variable. -/
def returnedTwice : Program := Sketch.program
  { returns := fun f => if f = .a then some [.call "g", .call "g"] else some [.copy .a]
    named := fun name => if name = "g" then [.b] else []
    returnModel := fun name => if name = "g" then some ("g", [.returnHeap]) else none }

/-- A function that returns a fact contributes it. -/
lemma contributes_of_any {skipped} {f : P.Fn} (hf : f ∉ skipped)
    (h : ((P.fnReturns f).getD []).any (·.isFact L) = true) : Contributes L skipped f := by
  obtain ⟨flow, hflow, hfact⟩ := any_eq_true.mp h
  cases hflows : P.fnReturns f with
  | none =>
    rw [hflows] at hflow
    cases hflow
  | some flows =>
    rw [hflows] at hflow
    exact .fact hf hflows hflow hfact

/-- The second time `g` has been expanded already, and its model is applied. -/
theorem model_used_of_returnedTwice :
    ∃ use ∈ ((Pag.build returnedTwice).expandCandidates 1 [Label.a] none none).modelUses,
      ∃ f ∈ use.candidates, Contributes (Pag.build returnedTwice).fnLocations [] f := by
  have h : ∃ use ∈ ((Pag.build returnedTwice).expandCandidates 1 [Label.a] none none).modelUses,
      ∃ f ∈ use.candidates, ((returnedTwice.fnReturns f).getD []).any
        (·.isFact (Pag.build returnedTwice).fnLocations) = true := by
    decide +kernel
  obtain ⟨use, huse, f, hf, hfact⟩ := h
  exact ⟨use, huse, f, hf, contributes_of_any not_mem_nil hfact⟩

/-- `f` returns `g()` and `h()`, which have models; `g` returns a variable, and `h` has no body. -/
def returnedOnce : Program := Sketch.program
  { returns := fun f => if f = .a then some [.call "g", .call "h"] else some [.copy .a]
    named := fun name => if name = "g" then [.b] else []
    returnModel :=
      fun name => if name = "g" ∨ name = "h" then some (name, [.returnHeap]) else none }

/-- The candidates of the names that are met are new then, and return a variable. -/
lemma returnedOnce_candidates {f : returnedOnce.Fn} {name : String} {visited : List returnedOnce.Fn}
    (hmet : Meets (Pag.build returnedOnce).fnLocations [Label.a] f name visited) :
    ∀ g ∈ returnedOnce.returnFlowCandidates f name, g ∉ visited ∧
      ((returnedOnce.fnReturns g).getD []).any
        (·.isFact (Pag.build returnedOnce).fnLocations) = true := by
  obtain ⟨reported, w, hwalks⟩ := exists_walks 1 [Label.a] (Pag.build returnedOnce)
  have hall : (Walk.callees (Pag.build returnedOnce).fnLocations 7 [Label.a]).all
      (fun r => r.2.events.all fun event => match event with
        | .met f name visited => (returnedOnce.returnFlowCandidates f name).all fun g =>
          g ∉ visited ∧ ((returnedOnce.fnReturns g).getD []).any
            (·.isFact (Pag.build returnedOnce).fnLocations)
        | _ => true) = true := by
    decide +kernel
  rw [hwalks.ends 7 (by decide)] at hall
  intro g hg
  have hmets := all_eq_true.mp hall _ (hwalks.meets_iff.mp hmet)
  exact of_decide_eq_true (all_eq_true.mp hmets g hg)

/-- The model of `h` stands in, that of `g` does not. -/
theorem model_use_iff_of_returnedOnce :
    ((Pag.build returnedOnce).expandCandidates 1 [Label.a] none none).modelUses ≠ [] ∧
      (∃ g ∈ returnedOnce.returnFlowCandidates Label.a "g",
        Contributes (Pag.build returnedOnce).fnLocations [] g) ∧
      ForWantOfReturns (Pag.build returnedOnce).fnLocations
        ((Pag.build returnedOnce).expandCandidates 1 [Label.a] none none).modelUses := by
  have huses := (model_use_iff (P := returnedOnce) 1 [Label.a] none none Label.a
    (Pag.build returnedOnce)).1
  refine ⟨fun h => ?_, ?_, huses.mpr ?_⟩
  · have hlength :
        ((Pag.build returnedOnce).expandCandidates 1 [Label.a] none none).modelUses.length =
      1 := by decide +kernel
    simp [h] at hlength
  · have h : ∃ g ∈ returnedOnce.returnFlowCandidates Label.a "g",
        ((returnedOnce.fnReturns g).getD []).any
          (·.isFact (Pag.build returnedOnce).fnLocations) = true := by decide +kernel
    obtain ⟨g, hg, hfact⟩ := h
    exact ⟨g, hg, contributes_of_any not_mem_nil hfact⟩
  · rintro f name visited hmet - ⟨g, hg, -⟩
    obtain ⟨hnew, hfact⟩ := returnedOnce_candidates hmet g hg
    exact ⟨g, hg, (contributes_of_any hnew hfact).yields⟩

/-- The expansion comes to an end, visits the functions reached from the callee, each once, and adds
their facts, and of the names that are met the models of those none of whose candidates contributes
a fact. -/
def ExpandsExactly (dst : NodeId) (callee : P.Fn) (pag : Pag P) : Prop :=
  ∃ reported w, (∀ fuel, P.functions.length < fuel →
      Walk.returnFlows pag.fnLocations fuel callee { visited := [] } = some (reported, w) ∧
      Expansion.returnFlows fuel dst callee { visited := [], pag } =
        (reported, w.expansion dst pag)) ∧
    w.visited.Nodup ∧ (∀ f, f ∈ w.visited ↔ Relation.ReflTransGen Returns callee f) ∧
    (w.events.filterMap ReturnEvent.directFact).Perm (w.visited.flatMap directFacts) ∧
    (∀ f name visited used, .model f name visited used ∈ w.events →
      .met f name visited ∈ w.events ∧ P.returnModel name = some used) ∧
    ∀ f name visited used, .met f name visited ∈ w.events → P.returnModel name = some used →
      (.model f name visited used ∈ w.events ↔
        ¬ ∃ c ∈ P.returnFlowCandidates f name, Contributes pag.fnLocations [] c)

/-- An expansion does all that it should just if, at each name that is met and has a model, a
candidate has something left to report just if one contributes a fact. -/
theorem expandsExactly_iff (dst : NodeId) (callee : P.Fn) (pag : Pag P) :
    ExpandsExactly dst callee pag ↔
      ∀ f name visited, Meets pag.fnLocations [callee] f name visited →
        (P.returnModel name).isSome = true →
          ((∃ c ∈ P.returnFlowCandidates f name, Contributes pag.fnLocations [] c) ↔
            ∃ c ∈ P.returnFlowCandidates f name, Yields pag.fnLocations visited c) := by
  obtain ⟨reported, w, hwalks⟩ := exists_walks dst [callee] pag
  have hends := hwalks.ends
  simp only [Walk.callees_singleton] at hends
  constructor
  · rintro ⟨reported', w', hruns, -, -, -, -, hmodels⟩ f name visited hmet hsome
    cases (hends _ (Nat.lt_succ_self _)).symm.trans (hruns _ (Nat.lt_succ_self _)).1
    obtain ⟨used, hused⟩ := Option.isSome_iff_exists.mp hsome
    have hmodel := hmodels f name visited used (hwalks.meets_iff.mp hmet) hused
    exact not_iff_not.mp (hmodel.symm.trans (hwalks.model_iff hused hmet))
  · intro hcondition
    refine ⟨reported, w, fun fuel hlt => ⟨hends fuel hlt, ?_⟩, hwalks.walked.nodup, fun f => ?_, ?_,
      fun f name visited used hmodel => ?_, fun f name visited used hmet hused => ?_⟩
    · exact Walk.returnFlows_expansion dst pag (hends fuel hlt)
    · simp [hwalks.mem_visited_iff]
    · exact hwalks.walked.facts
    · exact ⟨(hwalks.walked.settled.model hmodel).1, (hwalks.walked.settled.model hmodel).2.1⟩
    · have hmeets := hwalks.meets_iff.mpr hmet
      rw [hwalks.model_iff hused hmeets, hcondition f name visited hmeets (by rw [hused]; rfl)]

theorem expandsExactly_of_returnedOnce :
    ExpandsExactly 1 (Label.a : returnedOnce.Fn) (Pag.build returnedOnce) := by
  refine (expandsExactly_iff (P := returnedOnce) 1 Label.a _).mpr fun f name visited hmet _ => ?_
  have hcandidates := returnedOnce_candidates hmet
  constructor
  · rintro ⟨g, hg, -⟩
    exact ⟨g, hg, (contributes_of_any (hcandidates g hg).1 (hcandidates g hg).2).yields⟩
  · rintro ⟨g, hg, -⟩
    exact ⟨g, hg, contributes_of_any not_mem_nil (hcandidates g hg).2⟩

/-- `f` returns `g()` in two places: the second time `g` has been expanded, and its model is applied
although `g` returns a variable. -/
theorem not_expandsExactly_of_returnedTwice :
    ¬ ExpandsExactly 1 (Label.a : returnedTwice.Fn) (Pag.build returnedTwice) := by
  rintro ⟨reported, w, hruns, -, -, -, hmets, hmodels⟩
  have hany : (Walk.returnFlows (Pag.build returnedTwice).fnLocations 7 (Label.a : returnedTwice.Fn)
      { visited := [] }).any (fun r => r.2.events.any fun event => event.modelUse.any fun use =>
        use.candidates.any fun g => ((returnedTwice.fnReturns g).getD []).any
          (·.isFact (Pag.build returnedTwice).fnLocations)) = true := by
    decide +kernel
  rw [(hruns 7 (by decide)).1] at hany
  obtain ⟨event, hevent, huse⟩ := any_eq_true.mp hany
  obtain ⟨use, huse, hcandidates⟩ := (Option.any_eq_true _ _).mp huse
  obtain ⟨g, hg, hfact⟩ := any_eq_true.mp hcandidates
  cases event with
  | fact f flow | met f name visited => cases huse
  | model f name visited used =>
    cases huse
    obtain ⟨hmet, hused⟩ := hmets f name visited used hevent
    exact (hmodels f name visited used hmet hused).mp hevent
      ⟨g, hg, contributes_of_any not_mem_nil hfact⟩

end Pathologist.PointsTo
