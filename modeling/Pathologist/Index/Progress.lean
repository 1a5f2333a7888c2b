import Pathologist.Index.Window
import Mathlib.Algebra.BigOperators.Fin
import Mathlib.Algebra.Order.BigOperators.Group.Finset

/-!
# The indexing window does not get stuck

A thread that sleeps is told when what it waits for may have come: while the merge sleeps over a
parked unit, the worker that parked it has yet to signal, and while all workers sleep, either
nothing fits or the merge has yet to signal. Hence some thread can act as long as a unit is not
merged. Apart from wake-ups for no reason every step uses up a bounded account, so that the threads
come to the end whatever the order in which they act.
-/
open List
namespace Pathologist.Index

variable {I T : Type*}

/-- Every unit has a charge that fits an empty window. -/
structure Plan.Fits (plan : Plan) (items : List I) : Prop where
  length_eq : plan.charges.length = items.length
  window_pos : 0 < plan.window
  charge_le : ∀ i, plan.charge i ≤ plan.budget

lemma clamp_le {value low high : ℕ} (h : low ≤ high) : clamp value low high ≤ high := by
  unfold clamp
  split_ifs <;> omega

lemma le_clamp {value low high : ℕ} (h : low ≤ high) : low ≤ clamp value low high := by
  unfold clamp
  split_ifs <;> omega

lemma Plan.charge_le_of_forall {plan : Plan} {bound : ℕ}
    (h : ∀ charge ∈ plan.charges, charge ≤ bound)
    (i : ℕ) : plan.charge i ≤ bound := by
  rw [Plan.charge, getD_eq_getElem?_getD]
  cases hc : plan.charges[i]? with
  | none => exact Nat.zero_le _
  | some charge => exact h charge (mem_of_getElem? hc)

lemma Plan.of_fits (items : List I) (jobs : ℕ) (byteBudget : Option ℕ) (estimateBytes : I → ℕ) :
    (Plan.of items jobs byteBudget estimateBytes).Fits items := by
  cases byteBudget with
  | none =>
    refine ⟨length_replicate, ?_, Plan.charge_le_of_forall fun charge hc => ?_⟩
    · exact lt_of_lt_of_le (by decide) (le_clamp (by decide))
    · exact (eq_of_mem_replicate hc).le
  | some budget =>
    refine ⟨length_map _, ?_, Plan.charge_le_of_forall fun charge hc => ?_⟩
    · exact lt_of_lt_of_le (by decide) (le_clamp (by decide))
    obtain ⟨item, -, rfl⟩ := mem_map.mp hc
    -- The cap is a quarter of the budget, or the floor that the budget itself has.
    calc clamp (estimateBytes item) minBytes (max (max budget minBytes / maxChargeDivisor) minBytes)
        ≤ max (max budget minBytes / maxChargeDivisor) minBytes := clamp_le (le_max_right _ _)
      _ ≤ max budget minBytes := max_le (Nat.div_le_self _ _) (le_max_right _ _)

/-- A thread wakes without having been told. -/
def Action.Spurious {jobs : ℕ} : Action jobs T → Bool
  | .wakeWorker _ | .wakeMerger => true
  | _ => false

namespace State
variable {jobs : ℕ} {plan : Plan} {items : List I} {yields : I → T → Prop} {s s' : State jobs T}
  {action : Action jobs T}

structure Awake (plan : Plan) (s : State jobs T) : Prop where
  returned : ∀ {w}, s.workers w = .returned → plan.charges.length ≤ s.st.next
  signalled : ∀ {i}, s.merger = .asleep i → (s.st.done i).isSome = true → ∃ w, s.workers w = .parked
  admissible : s.st.next < plan.charges.length → ¬ s.st.Blocked plan →
    (∃ w, s.workers w ≠ .asleep) ∨ ∃ i, s.merger = .moved i

variable {w : Fin jobs} {worker : Worker}

lemma Awake.of_setWorker_returned (h : Awake plan s) {w' : Fin jobs} (hworker : worker ≠ .returned)
    (hw' : (s.setWorker w worker).workers w' = .returned) : plan.charges.length ≤ s.st.next := by
  obtain ⟨-, heq⟩ | ⟨-, hw'⟩ := setWorker_eq hw'
  · exact absurd heq hworker
  · exact h.returned hw'

/-- What a worker does that was not parked leaves those that are. -/
lemma Awake.signalled_setWorker (h : Awake plan s) (worker : Worker) {i : ℕ}
    (hw : s.workers w ≠ .parked) (hm : s.merger = .asleep i) (hd : (s.st.done i).isSome = true) :
    ∃ w', (s.setWorker w worker).workers w' = .parked := by
  obtain ⟨w', hw'⟩ := h.signalled hm hd
  have hne : w' ≠ w := by
    rintro rfl
    exact hw hw'
  exact ⟨w', (setWorker_of_ne s worker hne).trans hw'⟩

lemma Awake.admissible_of_ne_moved (h : Awake plan s) (hm : ∀ i, s.merger ≠ .moved i)
    (hn : s.st.next < plan.charges.length) (hf : ¬ s.st.Blocked plan) :
    ∃ w, s.workers w ≠ .asleep :=
  (h.admissible hn hf).resolve_right fun ⟨i, hi⟩ => hm i hi

lemma exists_setWorker_ne_asleep (s : State jobs T) (w : Fin jobs) (h : worker ≠ .asleep) :
    ∃ w', (s.setWorker w worker).workers w' ≠ .asleep :=
  ⟨w, (setWorker_self s w worker).trans_ne h⟩

lemma Awake.moves (hjobs : 0 < jobs) (h : Awake plan s)
    (hmove : Moves plan items yields s action s') :
    Awake plan s' := by
  cases hmove with
  | stop w hw hend =>
    have hparked : s.workers w ≠ .parked := hw.trans_ne nofun
    exact ⟨fun _ => hend, h.signalled_setWorker _ hparked,
      fun hn _ => absurd hn (Nat.not_lt.mpr hend)⟩
  | sleep w hw hn hb =>
    have hparked : s.workers w ≠ .parked := hw.trans_ne nofun
    exact ⟨h.of_setWorker_returned nofun, h.signalled_setWorker _ hparked,
      fun _ hf => absurd hb hf⟩
  | accept w hw hn hf =>
    have hparked : s.workers w ≠ .parked := hw.trans_ne nofun
    refine ⟨fun {w'} hw' => ?_, h.signalled_setWorker _ hparked,
      fun _ _ => .inl (exists_setWorker_ne_asleep _ w nofun)⟩
    have hreturned : (s.setWorker w (.indexing s.st.next)).workers w' = .returned := hw'
    refine (h.of_setWorker_returned ?_ hreturned).trans (Nat.le_succ _)
    exact nofun
  | park w i unit hw hu =>
    exact ⟨h.of_setWorker_returned nofun, fun _ _ => ⟨w, setWorker_self _ _ _⟩,
      fun _ _ => .inl (exists_setWorker_ne_asleep _ w nofun)⟩
  | signal w hw hm =>
    exact ⟨h.of_setWorker_returned nofun, fun ha => absurd ha (hm _),
      fun _ _ => .inl (exists_setWorker_ne_asleep s w nofun)⟩
  | rouse w i hw hm =>
    exact ⟨h.of_setWorker_returned nofun, nofun,
      fun _ _ => .inl (exists_setWorker_ne_asleep s w nofun)⟩
  | wakeWorker w hw =>
    have hparked : s.workers w ≠ .parked := hw.trans_ne nofun
    exact ⟨h.of_setWorker_returned nofun, h.signalled_setWorker _ hparked,
      fun _ _ => .inl (exists_setWorker_ne_asleep s w nofun)⟩
  | take i unit hm | merge i unit hm | wakeMerger i hm =>
    exact ⟨h.returned, nofun,
      fun hn hf => .inl (h.admissible_of_ne_moved (fun j => hm.trans_ne nofun) hn hf)⟩
  | wait i hm hd =>
    refine ⟨h.returned, fun {j} hj hparked => ?_,
      fun hn hf => .inl (h.admissible_of_ne_moved (fun j => hm.trans_ne nofun) hn hf)⟩
    cases hj
    rw [show s.st.done i = none from hd] at hparked
    cases hparked
  | release i hm => exact ⟨h.returned, nofun, fun _ _ => .inr ⟨i, rfl⟩⟩
  | notify i hm =>
    refine ⟨fun {w} hw => ?_, fun {j} hj => ?_, fun _ _ => .inl ⟨⟨0, hjobs⟩, ?_⟩⟩
    · dsimp only at hw
      split at hw
      · cases hw
      · exact h.returned hw
    · dsimp only [Merger.turn] at hj
      split at hj <;> cases hj
    dsimp only
    split
    · exact nofun
    · assumption

/-- A worker sleeps only while the merge has a unit ahead of it, or has yet to signal. -/
def Awaited (plan : Plan) (s : State jobs T) : Prop :=
  ∀ w, s.workers w = .asleep → s.st.merged < plan.charges.length ∨ ∃ i, s.merger = .moved i

lemma Awaited.setWorker (h : Awaited plan s) (w : Fin jobs) (hworker : worker ≠ .asleep) :
    Awaited plan (s.setWorker w worker) := by
  intro w' hw'
  obtain ⟨-, heq⟩ | ⟨-, hw'⟩ := setWorker_eq hw'
  · exact absurd heq hworker
  · exact h w' hw'

lemma Awaited.of_ne_moved (h : Awaited plan s) (hm : ∀ i, s.merger ≠ .moved i)
    (hw : s.workers w = .asleep) : s.st.merged < plan.charges.length :=
  (h w hw).resolve_right fun ⟨i, hi⟩ => hm i hi

lemma Awaited.moves (h : Awaited plan s) (ha : Accounts plan s)
    (hmove : Moves plan items yields s action s') : Awaited plan s' := by
  cases hmove with
  | stop w | accept w | park w | signal w | wakeWorker w =>
    refine Awaited.setWorker ?_ w nofun
    exact h
  | sleep w hw hn hb => exact fun _ _ => .inl (ha.merged_le.trans_lt hn)
  | rouse w i hw hm =>
    have hready : Awaited plan (s.setWorker w .ready) := Awaited.setWorker h w nofun
    exact fun w' hw' => .inl (hready.of_ne_moved (fun j => hm.trans_ne nofun) hw')
  | take i unit hm | wait i hm | merge i unit hm | wakeMerger i hm =>
    exact fun w hw => .inl (h.of_ne_moved (fun j => hm.trans_ne nofun) hw)
  | release i => exact fun _ _ => .inr ⟨i, rfl⟩
  | notify i =>
    intro w hw
    dsimp only at hw
    split at hw
    · cases hw
    · exact absurd hw ‹_›

/-- What every state keeps that the threads lead to. -/
structure Sound (plan : Plan) (items : List I) (yields : I → T → Prop) (s : State jobs T) :
    Prop where
  custody : Custody items yields s
  accounts : Accounts plan s
  kept : Kept items yields s
  awake : Awake plan s
  awaited : Awaited plan s

lemma sound_start (hj : 0 < jobs) : Sound plan items yields (start jobs plan : State jobs T) := by
  have hturn : (Merger.turn plan 0 : Merger T).Position plan 0 0 0 := by
    unfold Merger.turn
    split
    · exact ⟨rfl, ‹_›, rfl⟩
    · exact ⟨by omega, rfl⟩
  refine ⟨⟨nofun, nofun, fun hm => ?_⟩, ⟨le_rfl, Nat.zero_le _, ?_, Nat.zero_le _, Nat.zero_le _,
    hturn⟩,
    ⟨.nil, fun _ hlt => absurd hlt (Nat.not_lt_zero _)⟩,
    ⟨nofun, fun _ => nofun, fun _ _ => .inl ⟨⟨0, hj⟩, nofun⟩⟩, nofun⟩
  · dsimp only [start, Merger.turn] at hm
    split at hm <;> cases hm
  · exact (Finset.sum_eq_zero fun i hi => absurd (Finset.mem_Ico.mp hi).2 (Nat.not_lt_zero i)).symm

lemma Sound.moves (hj : 0 < jobs) (h : Sound plan items yields s)
    (hm : Moves plan items yields s action s') : Sound plan items yields s' :=
  ⟨h.custody.moves hm, h.accounts.moves h.custody hm, h.kept.moves h.custody h.accounts hm,
    h.awake.moves hj hm, Awaited.moves h.awaited h.accounts hm⟩

lemma Reachable.sound (hj : 0 < jobs) (h : Reachable plan items yields s) :
    Sound plan items yields s := by
  induction h with
  | refl => exact sound_start hj
  | tail _ hs ih =>
    obtain ⟨action, hd⟩ := hs
    exact ih.moves hj hd.moves

/-- The merge has its unit, or the unit lies parked for it and it is awake or about to be told. -/
def MergeProceeds (s : State jobs T) : Prop :=
  match s.merger with
  | .wanting i => (s.st.done i).isSome = true
  | .asleep i => (s.st.done i).isSome = true ∧ ∃ w, s.workers w = .parked
  | .merging _ _ | .holding _ | .moved _ => True
  | .finished => False

/-- The next unit fits, and a worker is or will be there to take it. -/
def Admits (plan : Plan) (s : State jobs T) : Prop :=
  s.st.next < plan.charges.length ∧ ¬ s.st.Blocked plan ∧
    ∃ w, s.workers w = .ready ∨ s.workers w = .parked

/-- A unit fits if all that were admitted are merged. -/
lemma Accounts.not_blocked (h : Accounts plan s) (hp : plan.Fits items)
    (heq : s.st.merged = s.st.next) : ¬ s.st.Blocked plan := by
  have hbytes := h.bytes_eq
  rw [heq, Finset.Ico_self, Finset.sum_empty] at hbytes
  have hwindow := hp.window_pos
  have hcharge := hp.charge_le s.st.next
  rintro (hf | ho) <;> omega

/-- The merge waits for a unit: it is parked, or a worker has it, or it can be admitted. -/
lemma Sound.waiting (h : Sound plan items yields s) (hp : plan.Fits items)
    (hmerged : s.st.merged < plan.charges.length)
    (hwaits : s.merger = .wanting s.st.merged ∨ s.merger = .asleep s.st.merged) :
    s.MergeProceeds ∨ (∃ w i, s.workers w = .indexing i) ∨ s.Admits plan := by
  obtain hlt | heq := h.accounts.merged_le.lt_or_eq
  · obtain ⟨w, hw⟩ | hd | ⟨unit, hu⟩ | hh := h.kept.held le_rfl hlt
    · exact .inr (.inl ⟨w, _, hw⟩)
    · refine .inl ?_
      unfold MergeProceeds
      obtain hm | hm := hwaits
      · rw [hm]
        exact hd
      · rw [hm]
        exact ⟨hd, h.awake.signalled hm hd⟩
    · obtain hm | hm := hwaits <;> exact absurd (hm.symm.trans hu) nofun
    · obtain hm | hm := hwaits <;> exact absurd (hm.symm.trans hh) nofun
  have hnext : s.st.next < plan.charges.length := heq ▸ hmerged
  have hfits := h.accounts.not_blocked hp heq
  have hmoved : ∀ i, s.merger ≠ .moved i := fun i => by
    obtain hm | hm := hwaits <;> exact hm.trans_ne nofun
  obtain ⟨w, hw⟩ := h.awake.admissible_of_ne_moved hmoved hnext hfits
  cases hworker : s.workers w with
  | ready => exact .inr (.inr ⟨hnext, hfits, w, .inl hworker⟩)
  | asleep => exact absurd hworker hw
  | indexing i => exact .inr (.inl ⟨w, i, hworker⟩)
  | parked => exact .inr (.inr ⟨hnext, hfits, w, .inr hworker⟩)
  | returned => exact absurd (h.awake.returned hworker) (Nat.not_le.mpr hnext)

lemma Sound.not_stuck (h : Sound plan items yields s) (hp : plan.Fits items)
    (hmerged : s.st.merged < plan.charges.length) :
    s.MergeProceeds ∨ (∃ w i, s.workers w = .indexing i) ∨ s.Admits plan := by
  have hposition := h.accounts.position
  cases hm : s.merger with
  | wanting i =>
    rw [hm] at hposition
    obtain ⟨rfl, -, -⟩ := hposition
    exact h.waiting hp hmerged (.inl hm)
  | asleep i =>
    rw [hm] at hposition
    obtain ⟨rfl, -, -⟩ := hposition
    exact h.waiting hp hmerged (.inr hm)
  | merging i unit | holding i | moved i =>
    refine .inl ?_
    rw [MergeProceeds, hm]
    trivial
  | finished =>
    rw [hm] at hposition
    exact absurd hposition.1 hmerged.ne

/-- A step of a thread that did not wake for no reason. -/
def Prompted (plan : Plan) (items : List I) (yields : I → T → Prop) (s s' : State jobs T) : Prop :=
  ∃ action, action.Spurious = false ∧ s.Does plan items yields action s'

/-- What the worker can still do before it is told anything. -/
def workerToll : Worker → ℕ
  | .returned => 0
  | .asleep => 1
  | .ready => 2
  | .parked => 4
  | .indexing _ => 5

def mergerToll (jobs length : ℕ) : Merger T → ℕ
  | .wanting i => (length - i) * (jobs + 6) + 1
  | .asleep i => (length - i) * (jobs + 6)
  | .merging i _ => (length - (i + 1)) * (jobs + 6) + (jobs + 5)
  | .holding i => (length - (i + 1)) * (jobs + 6) + (jobs + 4)
  | .moved i => (length - (i + 1)) * (jobs + 6) + (jobs + 3)
  | .finished => 0

/-- A bound on the steps ahead. -/
def toll (plan : Plan) (s : State jobs T) : ℕ :=
  (plan.charges.length - s.st.next) * 4 + ∑ w, workerToll (s.workers w) +
    mergerToll jobs plan.charges.length s.merger

lemma sum_workerToll_setWorker (s : State jobs T) (w : Fin jobs) (worker : Worker) :
    ∑ w', workerToll ((s.setWorker w worker).workers w') + workerToll (s.workers w) =
      ∑ w', workerToll (s.workers w') + workerToll worker := by
  have hrest : ∑ w' ∈ Finset.univ.erase w, workerToll ((s.setWorker w worker).workers w') =
      ∑ w' ∈ Finset.univ.erase w, workerToll (s.workers w') :=
    Finset.sum_congr rfl fun w' hw' => by rw [setWorker_of_ne s worker (Finset.ne_of_mem_erase hw')]
  rw [← Finset.add_sum_erase _ _ (Finset.mem_univ w),
    ← Finset.add_sum_erase _ _ (Finset.mem_univ w),
    setWorker_self]
  omega

lemma sum_workerToll_notify (workers : Fin jobs → Worker) :
    ∑ w, workerToll (if workers w = .asleep then .ready else workers w) ≤
      ∑ w, workerToll (workers w) + jobs := by
  have heach : ∀ w, workerToll (if workers w = .asleep then .ready else workers w) ≤
      workerToll (workers w) + 1 := fun w => by
    split
    · rw [‹workers w = .asleep›]
      exact le_rfl
    · exact Nat.le_succ _
  calc ∑ w, workerToll (if workers w = .asleep then .ready else workers w)
      ≤ ∑ w, (workerToll (workers w) + 1) := Finset.sum_le_sum fun w _ => heach w
    _ = ∑ w, workerToll (workers w) + jobs := by
      rw [Finset.sum_add_distrib, Finset.sum_const, Finset.card_univ, Fintype.card_fin, smul_eq_mul,
        mul_one]

lemma mergerToll_turn_le (jobs : ℕ) (plan : Plan) (i : ℕ) :
    mergerToll jobs plan.charges.length (.turn plan i : Merger T) ≤
      (plan.charges.length - i) * (jobs + 6) + 1 := by
  unfold Merger.turn
  split
  · exact le_rfl
  · exact Nat.zero_le _

/-- A worker gives up more than the rest of the step costs. -/
lemma toll_setWorker_lt {merger : Merger T}
    (h : workerToll worker + mergerToll jobs plan.charges.length merger <
      workerToll (s.workers w) + mergerToll jobs plan.charges.length s.merger) :
    ({ s.setWorker w worker with merger := merger }).toll plan < s.toll plan := by
  have hsum := sum_workerToll_setWorker s w worker
  unfold toll
  dsimp only [setWorker] at hsum ⊢
  omega

lemma toll_setMerger_lt {st : Window T} {log : List T} {merger : Merger T}
    (hn : st.next = s.st.next)
    (h : mergerToll jobs plan.charges.length merger <
      mergerToll jobs plan.charges.length s.merger) :
    ({ s with st := st, merger := merger, log := log }).toll plan < s.toll plan := by
  unfold toll
  dsimp only
  omega

lemma toll_lt (ha : Accounts plan s) (haction : action.Spurious = false)
    (hmove : Moves plan items yields s action s') : s'.toll plan < s.toll plan := by
  have hposition := ha.position
  cases hmove with
  | stop w hw | sleep w hw | signal w hw =>
    refine toll_setWorker_lt (Nat.add_lt_add_right ?_ _)
    rw [hw]
    decide
  | accept w hw hn hf =>
    have hsum := sum_workerToll_setWorker s w (.indexing s.st.next)
    rw [hw] at hsum
    unfold toll
    dsimp only [setWorker, workerToll] at hsum ⊢
    omega
  | park w i unit hw hu =>
    refine toll_setWorker_lt (Nat.add_lt_add_right ?_ _)
    rw [hw]
    exact Nat.lt_succ_self 4
  | rouse w i hw hm =>
    refine toll_setWorker_lt ?_
    rw [hw, hm]
    dsimp [workerToll, mergerToll]
    omega
  | take i unit hm hd =>
    rw [hm] at hposition
    refine toll_setMerger_lt rfl ?_
    have hsplit : plan.charges.length - i = plan.charges.length - (i + 1) + 1 := by
      have := hposition.2.1
      omega
    rw [hm]
    dsimp [mergerToll]
    rw [hsplit, Nat.succ_mul]
    omega
  | wait i hm | merge i unit hm | release i hm =>
    refine toll_setMerger_lt rfl ?_
    rw [hm]
    dsimp [mergerToll]
    omega
  | notify i hm =>
    have hsum := sum_workerToll_notify s.workers
    have hturn := mergerToll_turn_le (T := T) jobs plan (i + 1)
    unfold toll
    rw [hm]
    dsimp only [mergerToll] at hturn ⊢
    omega
  | wakeWorker w | wakeMerger i => cases haction

lemma prompted_of_act (action : Action jobs T) (ha : action.Spurious = false)
    (hf : ∀ w unit, action ≠ .finish w unit) (hact : ∃ s', s.act plan action = some s') :
    ∃ s', s.Prompted plan items yields s' := by
  obtain ⟨s', hs'⟩ := hact
  exact ⟨s', action, ha, hs', fun w unit _ heq => absurd heq (hf w unit)⟩

/-- A worker that neither sleeps nor has returned can act, as long as the closure returns. -/
lemma Sound.prompted_of_worker (h : Sound plan items yields s) (hp : plan.Fits items)
    (hindex : ∀ item ∈ items, ∃ unit, yields item unit) (ha : s.workers w ≠ .asleep)
    (hr : s.workers w ≠ .returned) : ∃ s', s.Prompted plan items yields s' := by
  cases hw : s.workers w with
  | ready =>
    refine prompted_of_act (.poll w) rfl (by simp) ?_
    simp only [act, hw]
    split_ifs <;> exact ⟨_, rfl⟩
  | asleep => exact absurd hw ha
  | indexing i =>
    have hlt : i < items.length :=
      hp.length_eq ▸ (h.custody.indexing hw).trans_le h.accounts.next_le
    obtain ⟨unit, hu⟩ := hindex items[i] (getElem_mem hlt)
    have hact : ∃ s', s.act plan (.finish w unit) = some s' := by
      simp only [act, hw]
      exact ⟨_, rfl⟩
    obtain ⟨s', hs'⟩ := hact
    refine ⟨s', .finish w unit, rfl, hs', fun w' unit' j haction hw' => ?_⟩
    cases haction
    obtain rfl := Worker.indexing.inj (hw.symm.trans hw')
    exact ⟨items[i], getElem?_eq_getElem hlt, hu⟩
  | parked =>
    refine prompted_of_act (.signal w) rfl (by simp) ?_
    simp only [act, hw]
    split <;> exact ⟨_, rfl⟩
  | returned => exact absurd hw hr

/-- The merge can act unless it sleeps or is through. -/
lemma prompted_of_merger (ha : ∀ i, s.merger ≠ .asleep i) (hf : s.merger ≠ .finished) :
    ∃ s', s.Prompted plan items yields s' := by
  cases hm : s.merger with
  | wanting i =>
    refine prompted_of_act .take rfl (by simp) ?_
    simp only [act, hm]
    split <;> exact ⟨_, rfl⟩
  | asleep i => exact absurd hm (ha i)
  | merging i unit =>
    refine prompted_of_act .merge rfl (by simp) ?_
    simp only [act, hm]
    exact ⟨_, rfl⟩
  | holding i =>
    refine prompted_of_act .release rfl (by simp) ?_
    simp only [act, hm]
    exact ⟨_, rfl⟩
  | moved i =>
    refine prompted_of_act .notify rfl (by simp) ?_
    simp only [act, hm]
    exact ⟨_, rfl⟩
  | finished => exact absurd hm hf

/-- As long as the closure returns, some thread can act until all are through. -/
lemma Sound.prompted_or_through (h : Sound plan items yields s) (hplan : plan.Fits items)
    (hindex : ∀ item ∈ items, ∃ unit, yields item unit) :
    (∃ s', s.Prompted plan items yields s') ∨ s.merger = .finished ∧
      ∀ w, s.workers w = .returned := by
  by_cases hb : ∃ w, s.workers w ≠ .asleep ∧ s.workers w ≠ .returned
  · obtain ⟨w, ha, hr⟩ := hb
    exact .inl (h.prompted_of_worker hplan hindex ha hr)
  have hidle : ∀ w, s.workers w = .asleep ∨ s.workers w = .returned := fun w => by
    by_contra hw
    exact hb ⟨w, not_or.mp hw⟩
  have hposition := h.accounts.position
  cases hm : s.merger with
  | wanting i | merging i unit | holding i | moved i =>
    exact .inl (prompted_of_merger (fun j => hm.trans_ne nofun) (hm.trans_ne nofun))
  | asleep i =>
    -- The merge is owed a signal, or a worker is not idle.
    rw [hm] at hposition
    obtain ⟨rfl, hlt, -⟩ := hposition
    obtain hp | ⟨w, j, hw⟩ | ⟨-, -, w, hw⟩ := h.not_stuck hplan hlt
    · rw [MergeProceeds, hm] at hp
      obtain ⟨-, w, hw⟩ := hp
      obtain hidle | hidle := hidle w <;> exact absurd (hw.symm.trans hidle) nofun
    · obtain hidle | hidle := hidle w <;> exact absurd (hw.symm.trans hidle) nofun
    · obtain hw | hw := hw <;>
        obtain hidle | hidle := hidle w <;> exact absurd (hw.symm.trans hidle) nofun
  | finished =>
    rw [hm] at hposition
    refine .inr ⟨rfl, fun w => (hidle w).resolve_left fun hw => ?_⟩
    have hlt := h.awaited.of_ne_moved (fun j => hm.trans_ne nofun) hw
    exact hlt.ne hposition.1

lemma Sound.log_of_finished (h : Sound plan items yields s) (hp : plan.Fits items)
    (hm : s.merger = .finished) : List.Forall₂ yields items s.log := by
  have hposition := h.accounts.position
  rw [hm] at hposition
  obtain ⟨hmerged, hlog⟩ := hposition
  have hkept := h.kept.log
  rw [hlog, hmerged, hp.length_eq, take_length] at hkept
  exact hkept

lemma Prompted.step (h : s.Prompted plan items yields s') : s.Step plan items yields s' := by
  obtain ⟨action, -, hd⟩ := h
  exact ⟨action, hd⟩

/-- Apart from wake-ups for no reason the threads act finitely often. -/
lemma Reachable.acc_prompted (hj : 0 < jobs) (h : s.Reachable plan items yields) :
    Acc (fun s' s => Prompted plan items yields s s') s := by
  -- Each such step lowers the toll.
  induction hn : s.toll plan using Nat.strong_induction_on generalizing s with
  | h n ih =>
    refine ⟨s, fun s' hp => ?_⟩
    obtain ⟨action, ha, hd⟩ := id hp
    have hlt := toll_lt (h.sound hj).accounts ha hd.moves
    exact ih (s'.toll plan) (hn ▸ hlt) (h.tail hp.step) rfl

/-- The units are merged in order and once each; the charges that are out are those of the units
admitted and not yet merged and keep to the budget, and the units to the window; some thread can act
while a unit is not merged, and where none can, all items have been merged. -/
structure Orderly (plan : Plan) (items : List I) (yields : I → T → Prop) (s : State jobs T) :
    Prop where
  log : List.Forall₂ yields (items.take s.log.length) s.log
  /-- The charge of a unit is returned right after it has been merged. -/
  logged : s.log.length = s.st.merged ∨
    s.log.length = s.st.merged + 1 ∧ s.merger = .holding s.st.merged
  merged_le : s.st.merged ≤ s.st.next
  next_le : s.st.next ≤ items.length
  bytes_eq : s.st.bytes = ∑ i ∈ Finset.Ico s.st.merged s.st.next, plan.charge i
  bytes_le : s.st.bytes ≤ plan.budget
  window_le : s.st.next - s.st.merged ≤ plan.window
  not_stuck : s.st.merged < items.length →
    s.MergeProceeds ∨ (∃ w i, s.workers w = .indexing i) ∨ s.Admits plan
  /-- Apart from wake-ups for no reason the threads act finitely often. -/
  ends : Acc (fun s' s => Prompted plan items yields s s') s
  complete :
      (∀ item ∈ items, ∃ unit, yields item unit) → (∀ s', ¬ s.Prompted plan items yields s') →
    s.merger = .finished ∧ (∀ w, s.workers w = .returned) ∧ List.Forall₂ yields items s.log

lemma Accounts.logged (h : Accounts plan s) : s.log.length = s.st.merged ∨
    s.log.length = s.st.merged + 1 ∧ s.merger = .holding s.st.merged := by
  have hposition := h.position
  cases hm : s.merger with
  | holding i =>
    rw [hm] at hposition
    obtain ⟨rfl, -, hlog⟩ := hposition
    exact .inr ⟨hlog, rfl⟩
  | wanting i | asleep i | merging i unit =>
    rw [hm] at hposition
    exact .inl hposition.2.2
  | moved i | finished =>
    rw [hm] at hposition
    exact .inl hposition.2

end State

/-- Whatever the order in which the threads act. -/
theorem orderly_of_reachable (items : List I) (jobs : ℕ) (byteBudget : Option ℕ)
    (estimateBytes : I → ℕ) (yields : I → T → Prop) (s : State (max jobs 1) T)
    (h : s.Reachable (Plan.of items jobs byteBudget estimateBytes) items yields) :
    s.Orderly (Plan.of items jobs byteBudget estimateBytes) items yields := by
  have hjobs : 0 < max jobs 1 := lt_max_of_lt_right Nat.one_pos
  have hfits := Plan.of_fits items jobs byteBudget estimateBytes
  have hsound := h.sound hjobs
  have haccounts := hsound.accounts
  refine ⟨hsound.kept.log, haccounts.logged, haccounts.merged_le, ?_, haccounts.bytes_eq,
    haccounts.bytes_le, haccounts.window_le, fun hmerged => ?_, h.acc_prompted hjobs,
    fun hindex hquiet => ?_⟩
  · exact hfits.length_eq ▸ haccounts.next_le
  · exact hsound.not_stuck hfits (hfits.length_eq ▸ hmerged)
  · obtain ⟨s', hs'⟩ | ⟨hmerger, hworkers⟩ := hsound.prompted_or_through hfits hindex
    · exact absurd hs' (hquiet s')
    · exact ⟨hmerger, hworkers, hsound.log_of_finished hfits hmerger⟩

/-- The first unit is charged the whole budget: the second worker sleeps while the first unit is
indexed and parked. -/
theorem orderly_of_full_budget : ∃ s : State (max 2 1) ℕ,
    s.workers ⟨1, by decide⟩ = .asleep ∧ s.st.bytes = 8192 ∧ s.st.done 0 = some 100001 ∧
    s.Reachable (Plan.of [100000, 7] 2 (some 0) id) [100000, 7] (fun item unit => unit = item + 1) ∧
    s.Orderly (Plan.of [100000, 7] 2 (some 0) id) [100000, 7]
      (fun item unit => unit = item + 1) := by
  have hreached : (State.start (max 2 1) (Plan.of [100000, 7] 2 (some 0) id)).Reachable
      (Plan.of [100000, 7] 2 (some 0) id) [100000, 7] (fun item unit => unit = item + 1) := .refl
  have hfirst := hreached.tail ⟨.poll ⟨0, by decide⟩, rfl, nofun⟩
  have hsecond := hfirst.tail ⟨.poll ⟨1, by decide⟩, rfl, nofun⟩
  have hparked := hsecond.tail ⟨.finish ⟨0, by decide⟩ 100001, rfl, fun w unit i haction hw => by
    cases haction
    obtain rfl : 0 = i := Worker.indexing.inj hw
    exact ⟨100000, rfl, rfl⟩⟩
  exact ⟨_, rfl, rfl, rfl, hparked, orderly_of_reachable [100000, 7] 2 (some 0) id _ _ hparked⟩

end Pathologist.Index
