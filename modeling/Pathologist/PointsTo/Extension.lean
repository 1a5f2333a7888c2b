import Pathologist.PointsTo.Growth
import Pathologist.PointsTo.State

/-!
# What the steps of the solver keep

Points-to facts, memory and the graph only grow, and nothing is added without being recorded:
a fact that a node gains is pending in its delta, a cell that grew is pending at the nodes that
load through it. `Grows` states this of any part of a step, and it is transitive. From it
follows that a constraint whose effect is complete up to what is pending stays so.
-/
open List Function
namespace Pathologist.PointsTo
open Lib.Fold

section Facts

@[simp] lemma mem_valuesAt {facts} {key value : ℕ} :
    value ∈ valuesAt facts key ↔ (key, value) ∈ facts := by
  constructor
  · intro h
    obtain ⟨⟨k, v⟩, hmem, rfl⟩ := mem_map.mp h
    obtain ⟨hf, hkey⟩ := mem_filter.mp hmem
    simp only [beq_iff_eq] at hkey
    exact hkey ▸ hf
  · intro h
    exact mem_map.mpr ⟨(key, value), mem_filter.mpr ⟨h, by simp⟩, rfl⟩

@[simp] lemma mem_walk (ord : SetOrder) {members} {x : ℕ} :
    x ∈ ord.walk members ↔ x ∈ members := (ord.perm members).mem_iff

end Facts

namespace Solver
variable {P : Program}

@[simp] lemma mem_ptsOf {s : Solver P} {n : NodeId} {l : LocId} :
    l ∈ s.ptsOf n ↔ (n, l) ∈ s.pts := mem_valuesAt

@[simp] lemma mem_memoryOf {s : Solver P} {cell x : LocId} :
    x ∈ s.memoryOf cell ↔ (cell, x) ∈ s.memory := mem_valuesAt

@[simp] lemma mem_holders {s : Solver P} {n : NodeId} {l : LocId} :
    n ∈ s.holders l ↔ (n, l) ∈ s.pts := by
  constructor
  · intro h
    obtain ⟨⟨k, v⟩, hmem, rfl⟩ := mem_map.mp h
    obtain ⟨hf, hloc⟩ := mem_filter.mp hmem
    simp only [beq_iff_eq] at hloc
    exact hloc ▸ hf
  · intro h
    exact mem_map.mpr ⟨(n, l), mem_filter.mpr ⟨h, by simp⟩, rfl⟩

/-- A node with something pending is on the worklist. -/
def Queued (s : Solver P) : Prop := ∀ n, s.delta n ≠ [] → n ∈ s.worklist

/-- A node holds what has been merged into it from a cell. -/
def Merged (s : Solver P) : Prop :=
  ∀ n cell, s.mergeSizes n cell ≤ (s.memoryOf cell).length ∧
    ∀ x ∈ (s.memoryOf cell).take (s.mergeSizes n cell), s.admits cell x → (n, x) ∈ s.pts

/-- The nodes that load through a cell have it pending. -/
def Told (s : Solver P) (cell : LocId) : Prop :=
  ∀ n, (n, cell) ∈ s.pts → s.pag.isLoadSrc n → cell ∈ s.delta n

/-- What a copy's source holds has reached its destination, or is pending. -/
def CopyDone (s : Solver P) (pending : NodeId → LocId → Prop) (c : Constraint P) : Prop :=
  ∀ l, (c.src, l) ∈ s.pts →
    pending c.src l ∨ (c.dst, l) ∈ s.pts ∨ Lapse.copy c.src c.dst l ∈ s.lapses

/-- What lies behind the pointer of a load has reached its destination, or is pending. -/
def LoadDone (s : Solver P) (pending : NodeId → LocId → Prop) (c : Constraint P) : Prop :=
  ∀ l, (c.src, l) ∈ s.pts → pending c.src l ∨
    ((s.pag.fnForLoc l).isSome → (c.dst, l) ∈ s.pts) ∧
    (s.pag.isCell l → ∀ x, (l, x) ∈ s.memory → s.admits l x → (c.dst, x) ∈ s.pts)

/-- What a store writes has reached the cells of its pointer, or is pending: as a target of the
pointer, or as a value of the source. -/
def StoreDone (s : Solver P) (target value : NodeId → LocId → Prop) (c : Constraint P) : Prop :=
  ∀ l, (c.dst, l) ∈ s.pts → s.pag.isCell l → target c.dst l ∨
    ((∀ x, (c.src, x) ∈ s.pts → s.admits l x → value c.src x ∨ (l, x) ∈ s.memory) ∧
      ∀ own, s.pag.selfLoc c.src = some own →
        (l, own) ∈ s.memory ∨ Lapse.ownLocation c.src l ∈ s.lapses)

/-- A constraint has had its effect, up to what is pending. -/
def Done (s : Solver P) (pending : NodeId → LocId → Prop) (c : Constraint P) : Prop :=
  (c.kind = .copy → s.CopyDone pending c) ∧ (c.kind = .load → s.LoadDone pending c) ∧
    (c.kind = .store → s.StoreDone pending pending c)

def Pending (s : Solver P) (n : NodeId) (l : LocId) : Prop := l ∈ s.delta n

/-- A field access holds a cell that it was pointed at, and what the cell holds. -/
def CellDone (s : Solver P) (dst : NodeId) (cell : LocId) : Prop :=
  (dst, cell) ∈ s.pts ∧ ∀ x, (cell, x) ∈ s.memory → s.admits cell x →
    (dst, x) ∈ s.pts ∨ Lapse.cell dst cell x ∈ s.lapses

/-- A wired actual has its copy, and what it holds has reached the formal, or is pending. -/
def WiredDone (s : Solver P) (pending : NodeId → LocId → Prop) (pair : NodeId × NodeId) : Prop :=
  s.pag.joins .copy pair.2 pair.1 ∧
    ∀ l, (pair.1, l) ∈ s.pts → pending pair.1 l ∨ (pair.2, l) ∈ s.pts

/-- The state `t` comes after `s`. The loaders of the cells in `untold` are not told yet. -/
structure Grows (untold : LocId → Prop) (s t : Solver P) : Prop where
  pag : s.pag.Extends t.pag
  pts : s.pts <+: t.pts
  memory : s.memory <+: t.memory
  lapses : s.lapses ⊆ t.lapses
  wiredCopies : s.wiredCopies <+: t.wiredCopies
  wiredKinds : s.wiredKinds ⊆ t.wiredKinds
  designated : s.designated ⊆ t.designated
  panicked : s.panicked = true → t.panicked = true
  delta : ∀ n, s.delta n ⊆ t.delta n
  fresh : ∀ {n l}, (n, l) ∈ t.pts → (n, l) ∈ s.pts ∨ l ∈ t.delta n
  admits : ∀ {cell x}, t.admits cell x → s.admits cell x
  merged : s.Merged → t.Merged
  queued : s.Queued → t.Queued
  told : ∀ {cell x}, (cell, x) ∈ t.memory → (cell, x) ∈ s.memory ∨ untold cell ∨ t.Told cell
  cells : ∀ {cell x}, (cell, x) ∈ t.memory → (cell, x) ∈ s.memory ∨
    ∀ dst, (dst, cell) ∈ s.designated → t.admits cell x →
      (dst, x) ∈ t.pts ∨ Lapse.cell dst cell x ∈ t.lapses
  ownLocation : ∀ {c}, c ∈ s.pag.constraints → c.kind = .store → s.pag.selfLoc c.src = none →
    ∀ own, t.pag.selfLoc c.src = some own → ∀ l, (c.dst, l) ∈ t.pts → t.pag.isCell l →
      l ∈ t.delta c.dst ∨ Lapse.ownLocation c.src l ∈ t.lapses
  newConstraints : ∀ {c}, c ∈ t.pag.constraints → c ∈ s.pag.constraints ∨ t.Done t.Pending c
  newCells : s.Merged → ∀ {dst cell}, (dst, cell) ∈ t.designated →
    (dst, cell) ∈ s.designated ∨ t.CellDone dst cell
  newWired : ∀ {pair}, pair ∈ t.wiredCopies → pair ∈ s.wiredCopies ∨ t.WiredDone t.Pending pair
  newKinds : ∀ {kind src dst}, (kind, src, dst) ∈ t.wiredKinds →
    (kind, src, dst) ∈ s.wiredKinds ∨ t.pag.joins kind dst src

namespace Grows
variable {untold : LocId → Prop} {s t u : Solver P}

lemma told_of_told (h : Grows untold s t) {cell : LocId} (hs : s.Told cell) : t.Told cell := by
  intro n hn hl
  rcases h.fresh hn with hold | hnew
  · rw [h.pag.isLoadSrc] at hl
    exact h.delta n (hs n hold hl)
  · exact hnew

section Pending
variable {pend pend' : NodeId → LocId → Prop} {c : Constraint P}

/-- What was complete up to `pend` is so up to `pend'`, which has what is pending by now. -/
lemma copyDone (h : Grows untold s t) (himp : ∀ {n l}, pend n l → pend' n l)
    (hdelta : ∀ {n l}, l ∈ t.delta n → pend' n l) (hs : s.CopyDone pend c) :
    t.CopyDone pend' c := by
  intro l hl
  rcases h.fresh hl with hold | hnew
  · rcases hs l hold with hp | hd | hlapse
    · exact .inl (himp hp)
    · exact .inr (.inl (h.pts.subset hd))
    · exact .inr (.inr (h.lapses hlapse))
  · exact .inl (hdelta hnew)

lemma wiredDone (h : Grows untold s t) (himp : ∀ {n l}, pend n l → pend' n l)
    (hdelta : ∀ {n l}, l ∈ t.delta n → pend' n l) {pair} (hs : s.WiredDone pend pair) :
    t.WiredDone pend' pair := by
  refine ⟨h.pag.joins hs.1, fun l hl => ?_⟩
  rcases h.fresh hl with hold | hnew
  · exact (hs.2 l hold).imp himp fun hd => h.pts.subset hd
  · exact .inl (hdelta hnew)

lemma loadDone (h : Grows (fun _ => False) s t) (himp : ∀ {n l}, pend n l → pend' n l)
    (hd : ∀ {n l}, l ∈ t.delta n → pend' n l) (hc : c ∈ s.pag.constraints)
    (hk : c.kind = .load) (hs : s.LoadDone pend c) : t.LoadDone pend' c := by
  intro l hl
  rcases h.fresh hl with hold | hnew
  swap
  · exact .inl (hd hnew)
  rcases hs l hold with hp | ⟨hfn, hcell⟩
  · exact .inl (himp hp)
  -- The cell may have grown: then its loaders were told of it.
  by_cases hg : ∃ x, (l, x) ∈ t.memory ∧ (l, x) ∉ s.memory
  · obtain ⟨x, hx, hxs⟩ := hg
    rcases h.told hx with hxs' | hno | ht
    · exact absurd hxs' hxs
    · exact hno.elim
    · refine .inl (hd (ht c.src hl ?_))
      simp only [Pag.isLoadSrc, any_eq_true, decide_eq_true_eq]
      exact ⟨c, h.pag.mem_constraints hc, hk, rfl⟩
  push Not at hg
  refine .inr ⟨?_, ?_⟩
  · intro hf
    rw [h.pag.fnForLoc] at hf
    exact h.pts.subset (hfn hf)
  · intro hl' x hx hadm
    rw [h.pag.isCell] at hl'
    exact h.pts.subset (hcell hl' x (hg x hx) (h.admits hadm))

lemma storeDone (h : Grows untold s t) {value value'} (himp : ∀ {n l}, pend n l → pend' n l)
    (hdelta : ∀ {n l}, l ∈ t.delta n → pend' n l) (himp' : ∀ {n l}, value n l → value' n l)
    (hde' : ∀ {n l}, l ∈ t.delta n → value' n l) (hc : c ∈ s.pag.constraints) (hk : c.kind = .store)
    (hs : s.StoreDone pend value c) : t.StoreDone pend' value' c := by
  intro l hl hcell
  rcases h.fresh hl with hold | hnew
  swap
  · exact .inl (hdelta hnew)
  rcases hs l hold (by rwa [h.pag.isCell] at hcell) with hp | ⟨hv, hown⟩
  · exact .inl (himp hp)
  by_cases hd : l ∈ t.delta c.dst
  · exact .inl (hdelta hd)
  refine .inr ⟨?_, ?_⟩
  · intro x hx hadm
    rcases h.fresh hx with hxold | hxnew
    · exact (hv x hxold (h.admits hadm)).imp himp' fun hm => h.memory.subset hm
    · exact .inl (hde' hxnew)
  intro own hself
  cases hsold : s.pag.selfLoc c.src with
  | some own' =>
    have : own' = own := Option.some.inj ((h.pag.selfLoc hsold).symm.trans hself)
    subst this
    exact (hown own' hsold).imp (fun hm => h.memory.subset hm) fun hlapse => h.lapses hlapse
  | none => exact .inr ((h.ownLocation hc hk hsold own hself l hl hcell).resolve_left hd)

lemma done (h : Grows (fun _ => False) s t) (himp : ∀ {n l}, pend n l → pend' n l)
    (hd : ∀ {n l}, l ∈ t.delta n → pend' n l) (hc : c ∈ s.pag.constraints)
    (hs : s.Done pend c) : t.Done pend' c :=
  ⟨fun hk => h.copyDone himp hd (hs.1 hk), fun hk => h.loadDone himp hd hc hk (hs.2.1 hk),
    fun hk => h.storeDone himp hd himp hd hc hk (hs.2.2 hk)⟩

end Pending

lemma cellDone (h : Grows untold s t) {dst : NodeId} {cell : LocId}
    (hd : (dst, cell) ∈ s.designated) (hs : s.CellDone dst cell) : t.CellDone dst cell := by
  refine ⟨h.pts.subset hs.1, fun x hx hadm => ?_⟩
  rcases h.cells hx with hold | hnew
  · exact (hs.2 x hold (h.admits hadm)).imp (fun hp => h.pts.subset hp) fun hl => h.lapses hl
  · exact hnew dst hd hadm

lemma refl (untold : LocId → Prop) (s : Solver P) : Grows untold s s where
  pag := .refl _
  pts := prefix_refl _
  memory := prefix_refl _
  lapses := Subset.refl _
  wiredCopies := prefix_refl _
  wiredKinds := Subset.refl _
  designated := Subset.refl _
  panicked := id
  delta := fun _ => Subset.refl _
  fresh := .inl
  admits := id
  merged := id
  queued := id
  told := .inl
  cells := .inl
  ownLocation := by
    intro c _ _ hn own hs
    simp [hn] at hs
  newConstraints := .inl
  newCells := fun _ => .inl
  newWired := .inl
  newKinds := .inl

lemma trans (h₁ : Grows untold s t) (h₂ : Grows untold t u) : Grows untold s u where
  pag := h₁.pag.trans h₂.pag
  pts := h₁.pts.trans h₂.pts
  memory := h₁.memory.trans h₂.memory
  lapses := Subset.trans h₁.lapses h₂.lapses
  wiredCopies := h₁.wiredCopies.trans h₂.wiredCopies
  wiredKinds := Subset.trans h₁.wiredKinds h₂.wiredKinds
  designated := Subset.trans h₁.designated h₂.designated
  panicked := fun h => h₂.panicked (h₁.panicked h)
  delta := fun n => Subset.trans (h₁.delta n) (h₂.delta n)
  fresh := by
    intro n l hl
    rcases h₂.fresh hl with hold | hnew
    · exact (h₁.fresh hold).imp id fun hd => h₂.delta n hd
    · exact .inr hnew
  admits := fun h => h₁.admits (h₂.admits h)
  merged := fun h => h₂.merged (h₁.merged h)
  queued := fun h => h₂.queued (h₁.queued h)
  told := by
    intro cell x hx
    rcases h₂.told hx with hold | hun | ht
    · exact (h₁.told hold).imp id (Or.imp id h₂.told_of_told)
    · exact .inr (.inl hun)
    · exact .inr (.inr ht)
  cells := by
    intro cell x hx
    rcases h₂.cells hx with hold | hnew
    · rcases h₁.cells hold with hold | hnew
      · exact .inl hold
      · exact .inr fun dst hd hadm => (hnew dst hd (h₂.admits hadm)).imp
          (fun hp => h₂.pts.subset hp) fun hl => h₂.lapses hl
    · exact .inr fun dst hd => hnew dst (h₁.designated hd)
  ownLocation := by
    intro c hc hk hn own hs l hl hcell
    cases hmid : t.pag.selfLoc c.src with
    | none => exact h₂.ownLocation (h₁.pag.mem_constraints hc) hk hmid own hs l hl hcell
    | some own' =>
      rcases h₂.fresh hl with hold | hnew
      · rw [h₂.pag.isCell] at hcell
        exact (h₁.ownLocation hc hk hn own' hmid l hold hcell).imp
          (fun hd => h₂.delta _ hd) fun hlapse => h₂.lapses hlapse
      · exact .inl hnew
  newConstraints := by
    intro c hc
    rcases h₂.newConstraints hc with hmid | hdone
    · rcases h₁.newConstraints hmid with hold | hdone
      · exact .inl hold
      rcases h₁.pag.added c hmid with hold | hkind
      · exact .inl hold
      have hload : c.kind ≠ .load := by rcases hkind with h | h | h <;> simp [h]
      exact .inr ⟨fun hk => h₂.copyDone (fun hp => h₂.delta _ hp) id (hdone.1 hk),
        fun hk => absurd hk hload,
        fun hk => h₂.storeDone (fun hp => h₂.delta _ hp) id (fun hp => h₂.delta _ hp) id hmid hk
          (hdone.2.2 hk)⟩
    · exact .inr hdone
  newCells := by
    intro hm dst cell hd
    rcases h₂.newCells (h₁.merged hm) hd with hmid | hdone
    · rcases h₁.newCells hm hmid with hold | hdone
      · exact .inl hold
      · exact .inr (h₂.cellDone hmid hdone)
    · exact .inr hdone
  newWired := by
    intro pair hp
    rcases h₂.newWired hp with hmid | hdone
    · exact (h₁.newWired hmid).imp id (h₂.wiredDone (fun hp => h₂.delta _ hp) id)
    · exact .inr hdone
  newKinds := by
    intro kind src dst hk
    rcases h₂.newKinds hk with hmid | hjoins
    · exact (h₁.newKinds hmid).imp id h₂.pag.joins
    · exact .inr hjoins

/-- Fewer cells are untold once their loaders have been told, or if they have not grown. -/
lemma tell {untold'} (h : Grows untold s t)
    (htell : ∀ cell, untold cell → untold' cell ∨ t.Told cell ∨
      ∀ x, (cell, x) ∈ t.memory → (cell, x) ∈ s.memory) : Grows untold' s t := by
  refine { h with told := fun {cell x} hx => ?_ }
  rcases h.told hx with hold | hun | ht
  · exact .inl hold
  · rcases htell cell hun with hun' | ht | hs
    · exact .inr (.inl hun')
    · exact .inr (.inr ht)
    · exact .inl (hs x hx)
  · exact .inr (.inr ht)

end Grows

/-- Growth that takes up no callee. -/
structure Inner (untold : LocId → Prop) (s t : Solver P) : Prop extends Grows untold s t where
  callEdges : t.callEdges = s.callEdges
  resolvedIndirect : t.resolvedIndirect = s.resolvedIndirect
  seenOnce : t.seenOnce = s.seenOnce

namespace Inner
variable {untold : LocId → Prop} {s t u : Solver P}

lemma refl (untold : LocId → Prop) (s : Solver P) : Inner untold s s :=
  ⟨.refl untold s, rfl, rfl, rfl⟩

lemma trans (h₁ : Inner untold s t) (h₂ : Inner untold t u) : Inner untold s u where
  toGrows := h₁.toGrows.trans h₂.toGrows
  callEdges := h₂.callEdges.trans h₁.callEdges
  resolvedIndirect := h₂.resolvedIndirect.trans h₁.resolvedIndirect
  seenOnce := h₂.seenOnce.trans h₁.seenOnce

lemma tell {untold'} (h : Inner untold s t) (ht : ∀ cell, untold cell → untold' cell ∨ t.Told cell ∨
      ∀ x, (cell, x) ∈ t.memory → (cell, x) ∈ s.memory) : Inner untold' s t :=
  ⟨h.toGrows.tell ht, h.callEdges, h.resolvedIndirect, h.seenOnce⟩

lemma mono {untold'} (h : Inner untold s t) (himp : ∀ cell, untold cell → untold' cell) :
    Inner untold' s t :=
  h.tell fun cell hc => .inl (himp cell hc)

end Inner

/-- How much has been found. -/
def size (s : Solver P) : ℕ :=
  s.pts.length + s.memory.length + s.pag.locations.length + s.wiredCopies.length

lemma Grows.size_le {untold} {s t : Solver P} (h : Grows untold s t) : s.size ≤ t.size := by
  have := h.pts.length_le
  have := h.memory.length_le
  have := h.pag.locations_length_le
  have := h.wiredCopies.length_le
  unfold size
  omega

/-- Growth that takes up no callee, extends the graph by cells of fields and copies only, and
queues no node unless something has been found. -/
structure Quiet (s t : Solver P) : Prop extends Inner (fun _ => False) s t where
  refines : s.pag.Refines t.pag
  work : t.worklist = s.worklist ∨ s.size < t.size

namespace Quiet
variable {s t u : Solver P}

lemma refl (s : Solver P) : Quiet s s := ⟨.refl _ s, .refl _, .inl rfl⟩

lemma trans (h₁ : Quiet s t) (h₂ : Quiet t u) : Quiet s u where
  toInner := h₁.toInner.trans h₂.toInner
  refines := h₁.refines.trans h₂.refines
  work := by
    have := h₁.size_le
    have := h₂.size_le
    rcases h₁.work with hw₁ | hlt₁
    · rcases h₂.work with hw₂ | hlt₂
      · exact .inl (hw₂.trans hw₁)
      · exact .inr (by omega)
    · exact .inr (by omega)

end Quiet

section Fold
variable {α : Type} {f : Solver P → α → Solver P} (s : Solver P)

lemma quiet_fold (h : ∀ t x, Quiet t (f t x)) (xs : List α) : Quiet s (xs.foldl f s) :=
  foldl_rel (R := Quiet) Quiet.trans xs (.refl s) fun t _ x _ => h t x

lemma inner_fold {untold} (h : ∀ t x, Inner untold t (f t x)) (xs : List α) :
    Inner untold s (xs.foldl f s) :=
  foldl_rel (R := Inner untold) Inner.trans xs (.refl _ s) fun t _ x _ => h t x

end Fold

/-- The fields that no gain of a points-to fact changes. -/
structure SameMemory (s t : Solver P) : Prop where
  pag : t.pag = s.pag
  memory : t.memory = s.memory
  slotGuard : t.slotGuard = s.slotGuard
  designated : t.designated = s.designated
  wiredCopies : t.wiredCopies = s.wiredCopies
  wiredKinds : t.wiredKinds = s.wiredKinds
  callEdges : t.callEdges = s.callEdges
  resolvedIndirect : t.resolvedIndirect = s.resolvedIndirect
  seenOnce : t.seenOnce = s.seenOnce
  lapses : t.lapses = s.lapses
  panicked : t.panicked = s.panicked

namespace SameMemory
variable {s t u : Solver P}

lemma refl (s : Solver P) : SameMemory s s :=
  ⟨rfl, rfl, rfl, rfl, rfl, rfl, rfl, rfl, rfl, rfl, rfl⟩

lemma trans (h₁ : SameMemory s t) (h₂ : SameMemory t u) : SameMemory s u where
  pag := h₂.pag.trans h₁.pag
  memory := h₂.memory.trans h₁.memory
  slotGuard := h₂.slotGuard.trans h₁.slotGuard
  designated := h₂.designated.trans h₁.designated
  wiredCopies := h₂.wiredCopies.trans h₁.wiredCopies
  wiredKinds := h₂.wiredKinds.trans h₁.wiredKinds
  callEdges := h₂.callEdges.trans h₁.callEdges
  resolvedIndirect := h₂.resolvedIndirect.trans h₁.resolvedIndirect
  seenOnce := h₂.seenOnce.trans h₁.seenOnce
  lapses := h₂.lapses.trans h₁.lapses
  panicked := h₂.panicked.trans h₁.panicked

variable (h : SameMemory s t)
include h

lemma admits (cell x : LocId) : t.admits cell x = s.admits cell x := by
  unfold Solver.admits
  rw [h.slotGuard, h.pag]

lemma memoryOf (cell : LocId) : t.memoryOf cell = s.memoryOf cell := by
  unfold Solver.memoryOf
  rw [h.memory]

/-- Facts gained and recorded are growth. -/
lemma inner (hpts : s.pts <+: t.pts) (hdelta : ∀ n, s.delta n ⊆ t.delta n)
    (hf : ∀ {n l}, (n, l) ∈ t.pts → (n, l) ∈ s.pts ∨ l ∈ t.delta n) (hm : s.Merged → t.Merged)
    (hq : s.Queued → t.Queued) (untold : LocId → Prop) : Inner untold s t where
  pag := h.pag ▸ .refl _
  pts := hpts
  memory := h.memory ▸ prefix_refl _
  lapses := h.lapses ▸ Subset.refl _
  wiredCopies := h.wiredCopies ▸ prefix_refl _
  wiredKinds := h.wiredKinds ▸ Subset.refl _
  designated := h.designated ▸ Subset.refl _
  panicked := fun hs => h.panicked ▸ hs
  delta := hdelta
  fresh := hf
  admits := fun {cell x} ht => h.admits cell x ▸ ht
  merged := hm
  queued := hq
  told := fun hx => .inl (h.memory ▸ hx)
  cells := fun hx => .inl (h.memory ▸ hx)
  ownLocation := by
    intro c _ _ hn own hsome
    rw [h.pag, hn] at hsome
    exact absurd hsome (by simp)
  newConstraints := fun hc => .inl (h.pag ▸ hc)
  newCells := fun _ => fun hd => .inl (h.designated ▸ hd)
  newWired := fun hp => .inl (h.wiredCopies ▸ hp)
  newKinds := fun hk => .inl (h.wiredKinds ▸ hk)
  callEdges := h.callEdges
  resolvedIndirect := h.resolvedIndirect
  seenOnce := h.seenOnce

end SameMemory

/-- A step that changes none of the fields growth speaks of. -/
lemma SameMemory.quiet {s t : Solver P} (h : SameMemory s t) (hpts : t.pts = s.pts)
    (hd : t.delta = s.delta) (hs : t.mergeSizes = s.mergeSizes) (hw : t.worklist = s.worklist) :
    Quiet s t where
  toInner := by
    refine h.inner (hpts ▸ prefix_refl _) (fun n => hd ▸ Subset.refl _)
      (fun hl => .inl (hpts ▸ hl)) ?_ ?_ _
    · intro hm n cell
      simp only [h.memoryOf, h.admits, hs, hpts]
      exact hm n cell
    · intro hq n hn
      rw [hd] at hn
      exact hw ▸ hq n hn
  refines := h.pag ▸ .refl _
  work := .inl hw

section Facts
variable (s : Solver P) (node : NodeId) (loc : LocId)

lemma mem_recordDelta : loc ∈ (s.recordDelta node loc).delta node := by
  unfold recordDelta
  split_ifs with h
  · exact h
  · simp

lemma delta_subset_recordDelta (n : NodeId) : s.delta n ⊆ (s.recordDelta node loc).delta n := by
  unfold recordDelta
  split_ifs
  · exact Subset.refl _
  intro l hl
  rcases eq_or_ne n node with rfl | hne
  · simp [hl]
  · simpa [hne] using hl

@[simp] lemma delta_push : (s.push node).delta = s.delta := by
  unfold push
  split_ifs <;> rfl

lemma sameMemory_recordDelta_push : SameMemory s ((s.recordDelta node loc).push node) := by
  unfold push recordDelta
  split_ifs <;> exact ⟨rfl, rfl, rfl, rfl, rfl, rfl, rfl, rfl, rfl, rfl, rfl⟩

lemma pts_recordDelta_push : ((s.recordDelta node loc).push node).pts = s.pts := by
  unfold push recordDelta
  split_ifs <;> rfl

/-- Recording what is pending at a node and queueing it. -/
lemma inner_recordDelta_push (untold : LocId → Prop) :
    Inner untold s ((s.recordDelta node loc).push node) := by
  have hsame := s.sameMemory_recordDelta_push node loc
  have hpts := s.pts_recordDelta_push node loc
  have hsizes : ((s.recordDelta node loc).push node).mergeSizes = s.mergeSizes := by
    unfold push recordDelta
    split_ifs <;> rfl
  refine hsame.inner (hpts ▸ prefix_refl _) ?_ ?_ ?_ ?_ untold
  · intro n
    rw [delta_push]
    exact s.delta_subset_recordDelta node loc n
  · intro n l hl
    exact .inl (hpts ▸ hl)
  · intro hm n cell
    simp only [hsame.memoryOf, hsame.admits, hsizes, hpts]
    exact hm n cell
  intro hq n hn
  rw [delta_push] at hn
  have hwork :
      ∀ m, m = node ∨ m ∈ s.worklist → m ∈ ((s.recordDelta node loc).push node).worklist := by
    intro m hm
    have hsw : (s.recordDelta node loc).worklist = s.worklist := by
      unfold recordDelta
      split_ifs <;> rfl
    unfold push
    rw [hsw]
    split_ifs with hin
    · rw [hsw]
      rcases hm with rfl | hm
      · exact hin
      · exact hm
    · exact mem_cons.mpr hm
  rcases eq_or_ne n node with rfl | hne
  · exact hwork n (.inl rfl)
  refine hwork n (.inr (hq n ?_))
  unfold recordDelta at hn
  split_ifs at hn
  · exact hn
  · simpa [hne] using hn

lemma sameMemory_addPts : SameMemory s (s.addPts node loc) := by
  unfold addPts push recordDelta
  split_ifs <;> exact ⟨rfl, rfl, rfl, rfl, rfl, rfl, rfl, rfl, rfl, rfl, rfl⟩

lemma addPts_pts :
    (s.addPts node loc).pts = if (node, loc) ∈ s.pts then s.pts else s.pts ++ [(node, loc)] := by
  unfold addPts push recordDelta
  split_ifs <;> rfl

lemma mem_addPts : (node, loc) ∈ (s.addPts node loc).pts := by
  rw [addPts_pts]
  split_ifs with h
  · exact h
  · simp

lemma quiet_addPts : Quiet s (s.addPts node loc) := by
  by_cases h : (node, loc) ∈ s.pts
  · rw [addPts, if_pos h]
    exact .refl s
  set m : Solver P := { s with pts := s.pts ++ [(node, loc)] } with hm
  have heq : s.addPts node loc = (m.recordDelta node loc).push node := by rw [addPts, if_neg h]
  have hstep : Inner (fun _ => False) m (s.addPts node loc) :=
    heq ▸ m.inner_recordDelta_push node loc _
  have hpts : (s.addPts node loc).pts = s.pts ++ [(node, loc)] := by rw [addPts_pts, if_neg h]
  have hin : loc ∈ (s.addPts node loc).delta node := by
    rw [heq, delta_push]
    exact m.mem_recordDelta node loc
  refine ⟨(s.sameMemory_addPts node loc).inner (hpts ▸ prefix_append _ _) hstep.delta ?_ ?_
    hstep.queued _, ?_, .inr ?_⟩
  · intro n l hl
    rw [hpts] at hl
    rcases mem_append.mp hl with hold | hnew
    · exact .inl hold
    · obtain ⟨rfl, rfl⟩ := Prod.mk.inj (mem_singleton.mp hnew)
      exact .inr hin
  · intro hs
    refine hstep.merged fun n cell => ⟨(hs n cell).1, fun x hx hadm => ?_⟩
    exact mem_append_left _ ((hs n cell).2 x hx hadm)
  · exact (s.sameMemory_addPts node loc).pag ▸ .refl _
  have hsame := s.sameMemory_addPts node loc
  unfold size
  rw [hpts, hsame.memory, hsame.pag, hsame.wiredCopies, length_append, length_singleton]
  omega

lemma quiet_propagateLocs (dst : NodeId) (locs : List LocId) : Quiet s (s.propagateLocs dst locs) :=
  s.quiet_fold (fun t l => t.quiet_addPts dst l) locs

lemma sameMemory_propagateLocs (dst : NodeId) (locs : List LocId) :
    SameMemory s (s.propagateLocs dst locs) :=
  foldl_rel (R := SameMemory) SameMemory.trans locs (.refl s) fun t _ l _ =>
    t.sameMemory_addPts dst l

lemma mem_propagateLocs (dst : NodeId) (locs : List LocId) :
    ∀ l ∈ locs, (dst, l) ∈ (s.propagateLocs dst locs).pts :=
  foldl_all (R := Quiet) Quiet.trans (Q := fun l t => (dst, l) ∈ t.pts) locs (.refl s)
    (fun t _ l _ => t.quiet_addPts dst l) (fun t _ l _ => t.mem_addPts dst l)
    fun _ _ _ h hl => h.pts.subset hl

lemma inner_push (untold : LocId → Prop) : Inner untold s (s.push node) := by
  unfold push
  split_ifs
  · exact .refl _ s
  have hsame : SameMemory s { s with worklist := node :: s.worklist } :=
    ⟨rfl, rfl, rfl, rfl, rfl, rfl, rfl, rfl, rfl, rfl, rfl⟩
  exact hsame.inner (prefix_refl _) (fun _ => Subset.refl _) .inl id
    (fun hq n hn => mem_cons_of_mem _ (hq n hn)) untold

end Facts

section Memory
variable (s : Solver P) (ord : SetOrder) (cell : LocId) (dst : NodeId) (locs : List LocId)

lemma inner_touchLocHolders (untold : LocId → Prop) : Inner untold s (s.touchLocHolders ord cell) :=
  s.inner_fold (fun t n => t.inner_recordDelta_push n cell untold) _

lemma sameMemory_touchLocHolders : SameMemory s (s.touchLocHolders ord cell) :=
  foldl_rel (R := SameMemory) SameMemory.trans _ (.refl s) fun t _ n _ =>
    t.sameMemory_recordDelta_push n cell

lemma touchLocHolders_pts : (s.touchLocHolders ord cell).pts = s.pts :=
  foldl_rel (R := fun a b : Solver P => b.pts = a.pts) (fun h₁ h₂ => h₂.trans h₁) _ rfl
    fun t _ n _ => t.pts_recordDelta_push n cell

lemma touchLocHolders_told : (s.touchLocHolders ord cell).Told cell := by
  intro n hn hl
  rw [(s.sameMemory_touchLocHolders ord cell).pag] at hl
  rw [touchLocHolders_pts] at hn
  refine foldl_all (R := Inner fun _ => False) Inner.trans
    (Q := fun m t => cell ∈ t.delta m) _ (.refl _ s)
    (fun t _ m _ => t.inner_recordDelta_push m cell _) ?_ (fun m t u h hc => h.delta m hc) n ?_
  · intro t _ m _
    rw [delta_push]
    exact t.mem_recordDelta m cell
  · exact mem_filter.mpr ⟨(mem_walk ord).mpr (mem_holders.mpr hn), hl⟩

/-- A write changes memory and what is noted of it, and nothing else. -/
lemma writeMemory_eq : ∃ memory lapses, s.writeMemory cell locs = { s with memory, lapses } := by
  induction locs generalizing s with
  | nil => exact ⟨_, _, rfl⟩
  | cons x xs ih =>
    obtain ⟨memory, lapses, h⟩ := ih (s.writeOne cell x)
    refine ⟨memory, lapses, ?_⟩
    unfold writeMemory at h ⊢
    rw [foldl_cons, h]
    unfold writeOne
    split_ifs <;> rfl

lemma inner_writeOne (cell x : LocId) {untold} (hc : untold cell) :
    Inner untold s (s.writeOne cell x) := by
  unfold writeOne
  split_ifs with h
  · exact .refl _ s
  have hmemory :
      ∀ c y, (c, y) ∈ s.memory ++ [(cell, x)] → (c, y) ∈ s.memory ∨ (c = cell ∧ y = x) := by
    intro c y hy
    rcases mem_append.mp hy with hy | hy
    · exact .inl hy
    · exact .inr (Prod.mk.inj (mem_singleton.mp hy))
  refine ⟨?_, rfl, rfl, rfl⟩
  refine { Grows.refl untold s with
    memory := prefix_append _ _
    lapses := subset_append_left _ _
    merged := ?_, told := ?_, cells := ?_, ownLocation := ?_, newConstraints := .inl
    newCells := fun _ => .inl, newWired := .inl }
  · intro hm n c
    have hprefix : s.memoryOf c <+: valuesAt (s.memory ++ [(cell, x)]) c :=
      ((prefix_append _ _).filter _).map _
    have htake : (valuesAt (s.memory ++ [(cell, x)]) c).take (s.mergeSizes n c) =
        (s.memoryOf c).take (s.mergeSizes n c) := by
      obtain ⟨rest, hr⟩ := hprefix
      rw [← hr, take_append_of_le_length (hm n c).1]
    refine ⟨(hm n c).1.trans hprefix.length_le, fun y hy => ?_⟩
    exact (hm n c).2 y (htake ▸ hy)
  · intro c y hy
    rcases hmemory c y hy with hold | ⟨rfl, rfl⟩
    · exact .inl hold
    · exact .inr (.inl hc)
  · intro c y hy
    rcases hmemory c y hy with hold | ⟨rfl, rfl⟩
    · exact .inl hold
    refine .inr fun dst hd hadm => ?_
    by_cases hp : (dst, y) ∈ s.pts
    · exact .inl hp
    · refine .inr (mem_append_right _ ?_)
      refine mem_map.mpr ⟨(dst, c), mem_filter.mpr ⟨hd, ?_⟩, rfl⟩
      simpa using ⟨hadm, hp⟩
  · intro c _ _ hn own hs
    exact absurd (hn.symm.trans hs) (by simp)

lemma inner_writeMemory {untold} (hc : untold cell) : Inner untold s (s.writeMemory cell locs) :=
  s.inner_fold (fun t x => t.inner_writeOne cell x hc) locs

lemma memory_prefix_writeMemory : s.memory <+: (s.writeMemory cell locs).memory := by
  have hinner : Inner (fun _ => True) s (s.writeMemory cell locs) :=
    s.inner_writeMemory cell locs trivial
  exact hinner.memory

lemma mem_writeOne (cell x : LocId) : (cell, x) ∈ (s.writeOne cell x).memory := by
  unfold writeOne
  split_ifs with h
  · exact h
  · simp

lemma mem_writeMemory : ∀ x ∈ locs, (cell, x) ∈ (s.writeMemory cell locs).memory :=
  foldl_all (R := Inner fun _ => True) Inner.trans (Q := fun x t => (cell, x) ∈ t.memory)
    locs (.refl _ s) (fun t _ x _ => t.inner_writeOne cell x trivial)
    (fun t _ x _ => t.mem_writeOne cell x) fun _ _ _ h hx => h.memory.subset hx

lemma memory_eq_of_not_grewSince {t} (h : s.memory <+: t.memory) (hg : s.grewSince t = false) :
    t.memory = s.memory := by
  have hle := h.length_le
  have hge : t.memory.length ≤ s.memory.length := by simpa [grewSince] using hg
  exact (h.eq_of_length (le_antisymm hle hge)).symm

lemma quiet_writeToCell : Quiet s (s.writeToCell ord cell locs) := by
  set t := s.writeMemory cell (locs.filter (s.admits cell)) with ht
  have hwrite : Inner (· = cell) s t := s.inner_writeMemory cell _ rfl
  obtain ⟨memory, lapses, heq⟩ := s.writeMemory_eq cell (locs.filter (s.admits cell))
  have hpag : t.pag = s.pag := by rw [ht, heq]
  have hwork : t.worklist = s.worklist := by rw [ht, heq]
  unfold writeToCell
  dsimp only
  rw [← ht]
  cases hg : s.grewSince t with
  | false =>
    have hmem := s.memory_eq_of_not_grewSince hwrite.memory hg
    exact ⟨hwrite.tell fun _ _ => .inr (.inr fun x hx => hmem ▸ hx), hpag ▸ .refl _, .inl hwork⟩
  | true =>
    simp only [if_true]
    have htouch := hwrite.trans (t.inner_touchLocHolders ord cell _)
    have hsame := t.sameMemory_touchLocHolders ord cell
    refine ⟨htouch.tell ?_, ?_, .inr ?_⟩
    · rintro c rfl
      exact .inr (.inl (t.touchLocHolders_told ord c))
    · rw [hsame.pag, hpag]
    have hlt : s.memory.length < t.memory.length := by simpa [grewSince] using hg
    unfold size
    rw [touchLocHolders_pts, hsame.memory, hsame.pag, hsame.wiredCopies]
    have := hwrite.pts.length_le
    have := hwrite.pag.locations_length_le
    have := hwrite.wiredCopies.length_le
    omega

lemma quiet_syncVarToCell (node : NodeId) (locs : List LocId) :
    Quiet s (s.syncVarToCell ord node locs) := by
  unfold syncVarToCell
  split
  · exact s.quiet_writeToCell ord _ locs
  · exact .refl s

lemma quiet_mergeMemoryIntoIfGrown (cell : LocId) :
    Quiet s (s.mergeMemoryIntoIfGrown dst cell) := by
  unfold mergeMemoryIntoIfGrown
  dsimp only
  split_ifs with hle
  · exact .refl s
  set vals := ((s.memoryOf cell).drop (s.mergeSizes dst cell)).filter (s.admits cell) with hv
  have hprop := (s.countMerged dst cell).quiet_propagateLocs dst vals
  have hsame := (s.countMerged dst cell).sameMemory_propagateLocs dst vals
  have hcount : SameMemory s (s.countMerged dst cell) :=
    ⟨rfl, rfl, rfl, rfl, rfl, rfl, rfl, rfl, rfl, rfl, rfl⟩
  have hsa' := hcount.trans hsame
  have hsizes : ((s.countMerged dst cell).propagateLocs dst vals).mergeSizes =
      (s.countMerged dst cell).mergeSizes :=
    foldl_rel (R := fun a b : Solver P => b.mergeSizes = a.mergeSizes)
      (fun h₁ h₂ => h₂.trans h₁) vals rfl fun t _ l _ => by
        unfold addPts push recordDelta
        split_ifs <;> rfl
  have hmerged : s.Merged → ((s.countMerged dst cell).propagateLocs dst vals).Merged := by
    intro hm n c
    simp only [hsa'.memoryOf, hsa'.admits, hsizes]
    by_cases hkey : n = dst ∧ c = cell
    · obtain ⟨rfl, rfl⟩ := hkey
      simp only [countMerged, update_self, take_length, le_refl, true_and]
      intro x hx hadm
      -- What was merged before stays; the rest has just been propagated.
      rw [← take_append_drop (s.mergeSizes n c) (s.memoryOf c)] at hx
      rcases mem_append.mp hx with hx | hx
      · exact hprop.pts.subset ((hm n c).2 x hx hadm)
      · exact mem_propagateLocs _ n vals x (mem_filter.mpr ⟨hx, hadm⟩)
    have hkey' : (s.countMerged dst cell).mergeSizes n c = s.mergeSizes n c := by
      unfold countMerged
      dsimp only
      rcases eq_or_ne n dst with rfl | hn
      · have hc : c ≠ cell := fun hc => hkey ⟨rfl, hc⟩
        rw [update_self, update_of_ne hc]
      · rw [update_of_ne hn]
    rw [hkey']
    exact ⟨(hm n c).1, fun x hx hadm => hprop.pts.subset ((hm n c).2 x hx hadm)⟩
  exact ⟨hsa'.inner hprop.pts hprop.delta hprop.fresh hmerged hprop.queued _, hprop.refines,
    hprop.work⟩

lemma sameMemory_mergeMemoryIntoIfGrown (cell : LocId) :
    SameMemory s (s.mergeMemoryIntoIfGrown dst cell) := by
  have hcount : SameMemory s (s.countMerged dst cell) :=
    ⟨rfl, rfl, rfl, rfl, rfl, rfl, rfl, rfl, rfl, rfl, rfl⟩
  unfold mergeMemoryIntoIfGrown
  dsimp only
  split_ifs
  · exact .refl s
  · exact hcount.trans (sameMemory_propagateLocs _ dst _)

/-- A node that a cell has just been merged into holds what the cell holds. -/
lemma mem_mergeMemoryIntoIfGrown (hm : s.Merged) (dst : NodeId) (cell : LocId) {x : LocId}
    (hx : (cell, x) ∈ s.memory) (hadm : s.admits cell x) :
    (dst, x) ∈ (s.mergeMemoryIntoIfGrown dst cell).pts := by
  have hx' := mem_memoryOf.mpr hx
  unfold mergeMemoryIntoIfGrown
  dsimp only
  split_ifs with hle
  · have htake : (s.memoryOf cell).take (s.mergeSizes dst cell) = s.memoryOf cell :=
      take_of_length_le hle
    exact (hm dst cell).2 x (htake.symm ▸ hx') hadm
  rw [← take_append_drop (s.mergeSizes dst cell) (s.memoryOf cell)] at hx'
  rcases mem_append.mp hx' with hx' | hx'
  · exact (quiet_propagateLocs _ dst _).pts.subset ((hm dst cell).2 x hx' hadm)
  · exact mem_propagateLocs _ dst _ x (mem_filter.mpr ⟨hx', hadm⟩)

lemma quiet_syncCellToVar : Quiet s (s.syncCellToVar cell) := by
  unfold syncCellToVar
  split
  · exact s.quiet_mergeMemoryIntoIfGrown _ cell
  · exact .refl s

/-- Merging the cells of a field access into its destination. -/
lemma mergeCells (cells : List LocId) :
    Quiet s (cells.foldl (fun s cell => s.mergeMemoryIntoIfGrown dst cell) s) ∧
      SameMemory s (cells.foldl (fun s cell => s.mergeMemoryIntoIfGrown dst cell) s) :=
  foldl_rel (R := fun a b : Solver P => Quiet a b ∧ SameMemory a b)
    (fun h₁ h₂ => ⟨h₁.1.trans h₂.1, h₁.2.trans h₂.2⟩) cells ⟨.refl s, .refl s⟩ fun t _ c _ =>
      ⟨t.quiet_mergeMemoryIntoIfGrown dst c, t.sameMemory_mergeMemoryIntoIfGrown dst c⟩

lemma mem_mergeCells (hm : s.Merged) (dst : NodeId) (cells : List LocId) :
    ∀ cell ∈ cells, ∀ x, (cell, x) ∈ s.memory → s.admits cell x →
      (dst, x) ∈ (cells.foldl (fun s cell => s.mergeMemoryIntoIfGrown dst cell) s).pts := by
  -- Merging changes neither memory nor guards, so that each cell is merged as it stood.
  refine foldl_all (R := fun a b : Solver P => Quiet a b ∧ SameMemory a b)
    (fun h₁ h₂ => ⟨h₁.1.trans h₂.1, h₁.2.trans h₂.2⟩)
    (Q := fun c t => ∀ x, (c, x) ∈ s.memory → s.admits c x → (dst, x) ∈ t.pts) cells
    ⟨.refl s, .refl s⟩
    (fun t _ c _ => ⟨t.quiet_mergeMemoryIntoIfGrown dst c,
      t.sameMemory_mergeMemoryIntoIfGrown dst c⟩)
    ?_ (fun c t u h hc x hx hadm => h.1.pts.subset (hc x hx hadm))
  intro t ht c _ x hx hadm
  refine t.mem_mergeMemoryIntoIfGrown (ht.1.merged hm) dst c (ht.2.memory ▸ hx) ?_
  rwa [ht.2.admits]

lemma quiet_pointGepAt (cells : List LocId) : Quiet s (s.pointGepAt dst cells) := by
  set m : Solver P := { s with designated := s.designated ++ cells.map (dst, ·) }
  set t := s.pointGepAt dst cells
  have hprop := m.quiet_propagateLocs dst cells
  have hmerge := (m.propagateLocs dst cells).mergeCells dst cells
  have hquiet : Quiet m t := hprop.trans hmerge.1
  have hsame : SameMemory m t := (m.sameMemory_propagateLocs dst cells).trans hmerge.2
  have hdone : s.Merged → ∀ cell ∈ cells, t.CellDone dst cell := by
    intro hm cell hcell
    refine ⟨hmerge.1.pts.subset (m.mem_propagateLocs dst cells cell hcell),
      fun x hx hadm => .inl ?_⟩
    refine mem_mergeCells _ (hprop.merged hm) dst cells cell hcell x ?_ ?_
    · exact hmerge.2.memory ▸ hx
    · exact hmerge.2.admits cell x ▸ hadm
  refine ⟨⟨?_, hquiet.callEdges, hquiet.resolvedIndirect, hquiet.seenOnce⟩, hquiet.refines,
    hquiet.work⟩
  refine { hquiet.toGrows with
    designated := hsame.designated ▸ subset_append_left _ _
    cells := fun hx => .inl (hsame.memory ▸ hx)
    newCells := fun hm d cell hd => ?_ }
  rw [hsame.designated] at hd
  rcases mem_append.mp hd with hd | hd
  · exact .inl hd
  · obtain ⟨c, hc, heq⟩ := mem_map.mp hd
    obtain ⟨rfl, rfl⟩ := Prod.mk.inj heq
    exact .inr (hdone hm c hc)

lemma quiet_loadLoc (loc : LocId) : Quiet s (s.loadLoc dst loc) := by
  unfold loadLoc
  split_ifs
  · exact s.quiet_addPts dst loc
  · exact .refl s
  · exact s.quiet_mergeMemoryIntoIfGrown dst loc

lemma sameMemory_loadLoc (loc : LocId) : SameMemory s (s.loadLoc dst loc) := by
  unfold loadLoc
  split_ifs
  · exact s.sameMemory_addPts dst loc
  · exact .refl s
  · exact s.sameMemory_mergeMemoryIntoIfGrown dst loc

lemma quiet_loadInto : Quiet s (s.loadInto dst locs) :=
  s.quiet_fold (fun t l => t.quiet_loadLoc dst l) locs

lemma sameMemory_loadInto : SameMemory s (s.loadInto dst locs) :=
  foldl_rel (R := SameMemory) SameMemory.trans locs (.refl s) fun t _ l _ =>
    t.sameMemory_loadLoc dst l

/-- What a load makes of the locations that its pointer holds. -/
lemma loadInto_complete (hm : s.Merged) (dst : NodeId) (locs : List LocId) :
    ∀ l ∈ locs, ((s.pag.fnForLoc l).isSome → (dst, l) ∈ (s.loadInto dst locs).pts) ∧
      (s.pag.isCell l → ∀ x, (l, x) ∈ s.memory → s.admits l x →
        (dst, x) ∈ (s.loadInto dst locs).pts) := by
  refine foldl_all (R := fun a b : Solver P => Quiet a b ∧ SameMemory a b)
    (fun h₁ h₂ => ⟨h₁.1.trans h₂.1, h₁.2.trans h₂.2⟩)
    (Q := fun l t => ((s.pag.fnForLoc l).isSome → (dst, l) ∈ t.pts) ∧
      (s.pag.isCell l → ∀ x, (l, x) ∈ s.memory → s.admits l x → (dst, x) ∈ t.pts)) locs
    ⟨.refl s, .refl s⟩ (fun t _ l _ => ⟨t.quiet_loadLoc dst l, t.sameMemory_loadLoc dst l⟩)
    ?_ (fun l t u h hl => ⟨fun hf => h.1.pts.subset (hl.1 hf),
      fun hc x hx hadm => h.1.pts.subset (hl.2 hc x hx hadm)⟩)
  intro t ht l _
  have hpag := ht.2.pag
  unfold loadLoc
  rw [hpag]
  constructor
  · intro hf
    rw [if_pos hf]
    exact t.mem_addPts dst l
  intro hc x hx hadm
  simp only [Pag.isCell, Bool.and_eq_true, Bool.not_eq_true'] at hc
  rw [if_neg (by simp [hc.1]), if_neg (by simp [hc.2])]
  refine t.mem_mergeMemoryIntoIfGrown (ht.1.merged hm) dst l (ht.2.memory ▸ hx) ?_
  rwa [ht.2.admits]

end Memory

/-! ## Addresses -/

section Addresses
variable (s : Solver P) (ord : SetOrder)

lemma quiet_registerSyncedCell (cell : LocId) : Quiet s (s.registerSyncedCell ord cell) := by
  unfold registerSyncedCell
  split
  · exact .refl s
  split_ifs
  · exact .refl s
  split
  · exact .refl s
  next node _ =>
  have hsync : Quiet s { s with
      syncedCell := update s.syncedCell node (some cell)
      cellOwner := update s.cellOwner cell (some node) } :=
    SameMemory.quiet ⟨rfl, rfl, rfl, rfl, rfl, rfl, rfl, rfl, rfl, rfl, rfl⟩ rfl rfl rfl rfl
  exact (hsync.trans (quiet_writeToCell _ ord cell _)).trans
    (quiet_mergeMemoryIntoIfGrown _ node cell)

/-- A guard that is set where there was none admits no more than before. -/
lemma quiet_setGuard (loc : LocId) (guard : Option SlotGuard) (taken : List LocId) :
    Quiet s { s with
      addrTaken := taken
      slotGuard := update s.slotGuard loc ((s.slotGuard loc).or guard) } := by
  set t : Solver P := { s with
    slotGuard := update s.slotGuard loc ((s.slotGuard loc).or guard) } with ht
  have hadm : ∀ {cell x}, t.admits cell x → s.admits cell x := by
    intro cell x h
    unfold admits at h ⊢
    rcases eq_or_ne cell loc with rfl | hne
    · cases hg : s.slotGuard cell with
      | none => rfl
      | some g =>
        rw [ht] at h
        simpa [hg] using h
    · rw [ht] at h
      simpa [hne] using h
  refine ⟨⟨{ Grows.refl _ s with
    admits := hadm
    merged := fun hm n cell => ⟨(hm n cell).1, fun x hx h => (hm n cell).2 x hx (hadm h)⟩
    cells := .inl
    newConstraints := .inl
    newCells := fun _ => .inl }, rfl, rfl, rfl⟩, .refl _, .inl rfl⟩

lemma quiet_takeAddress (loc : LocId) : Quiet s (s.takeAddress ord loc) := by
  unfold takeAddress
  split_ifs
  · exact .refl s
  · exact (s.quiet_setGuard loc _ _).trans (quiet_registerSyncedCell _ ord loc)

lemma quiet_seedAddrOf (c : Constraint P) : Quiet s (s.seedAddrOf ord c) := by
  unfold seedAddrOf
  split
  · exact (s.quiet_takeAddress ord _).trans (quiet_addPts _ _ _)
  · exact .refl s

end Addresses

end Solver
end Pathologist.PointsTo
